import Intcode.Proofs.Instruction.Digits
import Intcode.Proofs.Instruction.Table

/-!
# Execution follows the instruction table

A computation follows a list of checks (`Follows`) if it fails with the complaint of the first check that
does not hold, and gives a good result if all hold. Sequences follow the checks of their parts, so every
operand and every step of an instruction is compared on its own.

Main statement: a decoded instruction follows the checks of its scene, and then its effect is the row of
the table (`execute_follows`).
-/

namespace Intcode.Table

variable {α β : Type} {cs ds : List Check} {P : α → Prop} {Q : β → Prop}

/-! ## Computations with checks -/

/-- The fault that a complaint is about. -/
def Complaint.Reports : Complaint → Fault → Prop
  | .overflow, f => f = .overflow
  | .negativeAddress place, f => ∃ w : Word, w.toInt = place ∧ f = .negativeAddress w

/-- The computation fails as the first check does that does not hold; if all hold, its result is as `P`
says. -/
def Follows (cs : List Check) (P : α → Prop) (e : Except Fault α) : Prop :=
  match cs.find? (!·.holds) with
  | some c => ∃ f, e = .error f ∧ c.complaint.Reports f
  | none => ∃ x, e = .ok x ∧ P x

theorem Follows.pure {x : α} (h : P x) : Follows [] P (.ok x) := ⟨x, rfl, h⟩

theorem Follows.mono {P' : α → Prop} {e : Except Fault α} (h : Follows cs P e)
    (hP : ∀ x, P x → P' x) : Follows cs P' e := by
  unfold Follows at h ⊢
  split
  · rename_i c hc
    rw [hc] at h
    exact h
  · rename_i hc
    rw [hc] at h
    obtain ⟨x, he, hx⟩ := h
    exact ⟨x, he, hP x hx⟩

theorem Follows.bind {e : Except Fault α} {k : α → Except Fault β} (h : Follows cs P e)
    (hk : ∀ x, P x → Follows ds Q (k x)) : Follows (cs ++ ds) Q (e >>= k) := by
  unfold Follows at h ⊢
  rw [List.find?_append]
  cases hc : cs.find? (!·.holds) with
  | some c =>
      rw [hc] at h
      obtain ⟨f, rfl, hf⟩ := h
      exact ⟨f, rfl, hf⟩
  | none =>
      rw [hc] at h
      obtain ⟨x, rfl, hx⟩ := h
      exact hk x hx

theorem Follows.bind_one {c : Check} {e : Except Fault α} {k : α → Except Fault β}
    (h : Follows [c] P e) (hk : ∀ x, P x → Follows ds Q (k x)) : Follows (c :: ds) Q (e >>= k) :=
  h.bind hk

theorem Follows.bind_pure {e : Except Fault α} {k : α → β} (h : Follows cs P e)
    (hk : ∀ x, P x → Q (k x)) : Follows cs Q (e >>= fun x => .ok (k x)) := by
  rw [← List.append_nil cs]
  exact h.bind fun x hx => Follows.pure (hk x hx)

theorem Follows.isOk_iff {e : Except Fault α} (h : Follows cs P e) :
    (∃ x, e = .ok x) ↔ ∀ c ∈ cs, c.holds = true := by
  unfold Follows at h
  cases hc : cs.find? (!·.holds) with
  | some c =>
      rw [hc] at h
      obtain ⟨f, rfl, -⟩ := h
      constructor
      · rintro ⟨x, hx⟩
        cases hx
      · intro hall
        have hfail := List.find?_some hc
        rw [hall c (List.mem_of_find?_eq_some hc)] at hfail
        cases hfail
  | none =>
      rw [hc] at h
      obtain ⟨x, rfl, -⟩ := h
      refine ⟨fun _ c hmem => ?_, fun _ => ⟨x, rfl⟩⟩
      simpa using List.find?_eq_none.1 hc c hmem

theorem Follows.map {e : Except Fault α} {g : α → β} (h : Follows cs P e)
    (hg : ∀ x, P x → Q (g x)) : Follows cs Q (e.map g) := by
  unfold Follows at h ⊢
  split
  · rename_i c hc
    rw [hc] at h
    obtain ⟨f, rfl, hf⟩ := h
    exact ⟨f, rfl, hf⟩
  · rename_i hc
    rw [hc] at h
    obtain ⟨x, rfl, hx⟩ := h
    exact ⟨g x, rfl, hg x hx⟩

/-- One check: a computation that follows it fails as it says or has its result. -/
theorem Follows.check {c : Check} {e : Except Fault α}
    (hok : c.holds = true → ∃ x, e = .ok x ∧ P x)
    (hfail : c.holds = false → ∃ f, e = .error f ∧ c.complaint.Reports f) : Follows [c] P e := by
  unfold Follows
  cases hc : c.holds with
  | true => simpa [hc] using hok hc
  | false => simpa [hc] using hfail hc

/-! ## Words and addresses -/

theorem ofInt?_eq_none_iff {i : Int} : Word.ofInt? i = none ↔ inRange i = false := by
  constructor
  · intro h
    cases hr : inRange i with
    | false => rfl
    | true =>
        simp only [inRange, Bool.and_eq_true, decide_eq_true_eq] at hr
        rw [Word.ofInt?_eq_some_iff.2 (Int64.toInt_ofInt_of_le hr.1 hr.2)] at h
        cases h
  · intro h
    cases hw : Word.ofInt? i with
    | none => rfl
    | some w =>
        rw [← Word.ofInt?_eq_some_iff.1 hw] at h
        have := w.le_toInt
        have := w.toInt_lt
        simp only [inRange, Bool.and_eq_false_iff, decide_eq_false_iff_not] at h
        omega

/-- A result of checked arithmetic, or the fault that there is none. -/
def checked : Option Word → Except Fault Word
  | some w => .ok w
  | none => .error .overflow

theorem follows_ofInt? (i : Int) :
    Follows [.word i] (fun w : Word => w.toInt = i) (checked (Word.ofInt? i)) := by
  refine Follows.check (fun hr => ?_) (fun hr => ?_)
  · cases hw : Word.ofInt? i with
    | none =>
        have hr' : inRange i = true := hr
        rw [ofInt?_eq_none_iff.1 hw] at hr'
        cases hr'
    | some w => exact ⟨w, rfl, Word.ofInt?_eq_some_iff.1 hw⟩
  · rw [ofInt?_eq_none_iff.2 hr]
    exact ⟨.overflow, rfl, rfl⟩

theorem toNat_address {w : Word} {a : Address} (h : w.address? = some a) :
    (a.toNat : Int) = w.toInt := by
  unfold Word.address? at h
  split at h
  · rename_i hw
    cases h
    have hle : (0 : Int64) ≤ w := Int64.le_iff_toInt_le.2 hw
    rw [Int64.toNat_toUInt64_of_le hle, Int64.toNatClampNeg, Int.toNat_of_nonneg hw]
  · cases h

theorem follows_address {w : Word} {i : Int} (hw : w.toInt = i) :
    Follows [.place i] (fun a : Address => (a.toNat : Int) = i) (Operand.address w) := by
  unfold Operand.address
  refine Follows.check (fun h => ?_) (fun h => ?_)
  · cases ha : w.address? with
    | none =>
        have hneg := Word.address?_eq_none_iff.1 ha
        simp only [Check.place, decide_eq_true_eq] at h
        omega
    | some a => exact ⟨a, rfl, (toNat_address ha).trans hw⟩
  · cases ha : w.address? with
    | none => exact ⟨_, rfl, w, hw, rfl⟩
    | some a =>
        have hle := toNat_address ha
        simp only [Check.place, decide_eq_false_iff_not] at h
        omega

theorem follows_sum {a b : Word} {i : Int} (h : a.toInt + b.toInt = i) :
    Follows [.word i] (fun w : Word => w.toInt = i) (Operand.sum a b) := by
  have hsum : Operand.sum a b = checked (Word.ofInt? (a.toInt + b.toInt)) := by
    unfold Operand.sum Word.add? checked
    rfl
  rw [hsum, h]
  exact follows_ofInt? i

theorem follows_behind (r : Registers) (n : Nat) :
    Follows [.counter (r.pc.toNat + n)] (fun a : Address => a.toNat = r.pc.toNat + n)
      (Operand.behind r n) := by
  unfold Operand.behind
  cases ha : r.pc.add? n with
  | some a =>
      have hsum := Address.add?_eq_some_iff.1 ha
      have hlt := a.toNat_lt
      refine Follows.check (fun _ => ⟨a, rfl, hsum⟩) (fun h => ?_)
      simp only [Check.counter, decide_eq_false_iff_not] at h
      omega
  | none =>
      refine Follows.check (fun h => ?_) (fun _ => ⟨_, rfl, rfl⟩)
      simp only [Check.counter, decide_eq_true_eq] at h
      have hsome : r.pc.add? n = some (UInt64.ofNatLT _ h) :=
        Address.add?_eq_some_iff.2 UInt64.toNat_ofNatLT
      rw [ha] at hsome
      cases hsome

/-! ## Scenes -/

def Scene.of (i : Instruction) (m : Memory) (r : Registers) (offered : Option Word) : Scene where
  opcode := i.opcode
  modes := i.modes
  cell n := (m.get (UInt64.ofNat n)).toInt
  pc := r.pc.toNat
  base := r.relativeBase.toInt
  input := offered.map Int64.toInt

def rowOf (r : Registers) : Effect → Row
  | .change c =>
    { store := c.store.map fun (a, w) => (a.toNat, w.toInt)
      pc := c.registers.pc.toNat
      base := c.registers.relativeBase.toInt
      output := c.emit.map Int64.toInt
      consumes := c.consumes }
  | .needInput => { pc := r.pc.toNat, base := r.relativeBase.toInt, control := .needInput }
  | .halt => { pc := r.pc.toNat, base := r.relativeBase.toInt, control := .halt }

variable (i : Instruction) (m : Memory) (r : Registers) (offered : Option Word)

theorem cell_toNat (a : Address) : (Scene.of i m r offered).cell a.toNat = (m.get a).toInt := by
  simp [Scene.of]

/-! ## Operands -/

theorem follows_word (p : Parameter) :
    Follows [.counter (r.pc.toNat + p.number)]
      (fun w : Word => w.toInt = (Scene.of i m r offered).raw p) (Operand.word m r p) := by
  refine (follows_behind r p.number).bind_pure fun a ha => ?_
  rw [← cell_toNat i m r offered, ha]
  rfl

theorem follows_value (p : Parameter) :
    Follows ((Scene.of i m r offered).operandChecks p)
      (fun w : Word => w.toInt = (Scene.of i m r offered).value p)
      (Operand.value m r i.modes p) := by
  unfold Operand.value
  refine (follows_word i m r offered p).bind fun w hw => ?_
  simp only [Scene.value, Scene.place]
  have hmodes : (Scene.of i m r offered).modes = i.modes := rfl
  rw [hmodes]
  cases i.modes.get p with
  | immediate => exact Follows.pure hw
  | position =>
      refine (follows_address hw).bind_pure fun a ha => ?_
      rw [← cell_toNat i m r offered, ← ha, Int.toNat_natCast]
  | relative =>
      have hsum : w.toInt + r.relativeBase.toInt = (Scene.of i m r offered).raw p +
        (Scene.of i m r offered).base := by rw [hw]; rfl
      refine (follows_sum hsum).bind fun v hv => ?_
      refine (follows_address hv).bind_pure fun a ha => ?_
      rw [← cell_toNat i m r offered, ← ha, Int.toNat_natCast]

theorem follows_target {p : Parameter} (hp : i.modes.get p ≠ .immediate) :
    Follows ((Scene.of i m r offered).operandChecks p)
      (fun a : Address => a.toNat = ((Scene.of i m r offered).place p).toNat)
      (Operand.target m r i.modes p) := by
  unfold Operand.target
  refine (follows_word i m r offered p).bind fun w hw => ?_
  simp only [Scene.place]
  have hmodes : (Scene.of i m r offered).modes = i.modes := rfl
  rw [hmodes]
  cases hm : i.modes.get p with
  | immediate => exact absurd hm hp
  | position =>
      refine (follows_address hw).mono fun a ha => ?_
      rw [← ha, Int.toNat_natCast]
  | relative =>
      have hsum : w.toInt + r.relativeBase.toInt = (Scene.of i m r offered).raw p +
        (Scene.of i m r offered).base := by rw [hw]; rfl
      refine (follows_sum hsum).bind fun v hv => ?_
      refine (follows_address hv).mono fun a ha => ?_
      rw [← ha, Int.toNat_natCast]

theorem follows_advance :
    Follows [.counter (r.pc.toNat + i.width)]
      (fun t : Registers => t.pc.toNat = r.pc.toNat + i.width ∧ t.relativeBase = r.relativeBase)
      (i.advance r) := by
  refine (follows_behind r i.width).bind_pure fun a ha => ?_
  exact ⟨ha, rfl⟩

/-! ## Families of instructions -/

/-- An instruction that stores what `f` makes of two operands follows their checks and those of `f`. -/
theorem follows_combine {f : Word → Word → Option Word} {v : Int} {cs : List Check}
    (hp : i.modes.get .third ≠ .immediate) (hwidth : i.width = 4)
    (hf : ∀ a b : Word, a.toInt = (Scene.of i m r offered).value .first →
      b.toInt = (Scene.of i m r offered).value .second →
      Follows cs (fun w : Word => w.toInt = v) (checked (f a b))) :
    Follows ((Scene.of i m r offered).operandChecks .first ++
        ((Scene.of i m r offered).operandChecks .second ++
          ((Scene.of i m r offered).operandChecks .third ++
            (.counter (r.pc.toNat + i.width) :: cs))))
      (fun e => rowOf r e = (Scene.of i m r offered).storing v) (i.combine m r f) := by
  unfold Instruction.combine
  refine (follows_value i m r offered .first).bind fun a ha => ?_
  refine (follows_value i m r offered .second).bind fun b hb => ?_
  refine (follows_target i m r offered hp).bind fun place hplace => ?_
  refine (follows_advance i r).bind_one fun t ht => ?_
  have hstore : Follows cs (fun e => rowOf r e = (Scene.of i m r offered).storing v)
      ((checked (f a b)).map fun w =>
        Effect.change { registers := t, store := some (place, w) }) := by
    refine (hf a b ha hb).map fun w hw => ?_
    simp only [rowOf, Scene.storing, ht, hwidth, hplace, hw, Option.map_some, Option.map_none]
    rfl
  cases hfab : f a b with
  | none => rwa [hfab] at hstore
  | some w => rwa [hfab] at hstore

/-- A comparison stores one if it holds of its operands, and zero if not. -/
theorem follows_compare {f : Word → Word → Bool} {holds : Prop} [Decidable holds]
    (hp : i.modes.get .third ≠ .immediate) (hwidth : i.width = 4)
    (hf : ∀ a b : Word, a.toInt = (Scene.of i m r offered).value .first →
      b.toInt = (Scene.of i m r offered).value .second → f a b = decide holds) :
    Follows ((Scene.of i m r offered).operandChecks .first ++
        ((Scene.of i m r offered).operandChecks .second ++
          ((Scene.of i m r offered).operandChecks .third ++ [.counter (r.pc.toNat + i.width)])))
      (fun e => rowOf r e = (Scene.of i m r offered).storing (if holds then 1 else 0))
      (i.combine m r fun a b => some (.ofBool (f a b))) := by
  refine follows_combine i m r offered hp hwidth fun a b ha hb => Follows.pure ?_
  rw [hf a b ha hb]
  by_cases h : holds
  · rw [if_pos h, decide_eq_true h]
    rfl
  · rw [if_neg h, decide_eq_false h]
    rfl

/-- A conditional jump follows the checks of its operands, and that of its destination if it is taken. -/
theorem follows_jump {taken : Word → Bool} {jumps : Prop} [Decidable jumps] (hwidth : i.width = 3)
    (htaken : ∀ a : Word, a.toInt = (Scene.of i m r offered).value .first →
      taken a = decide jumps) :
    Follows ((Scene.of i m r offered).operandChecks .first ++
        ((Scene.of i m r offered).operandChecks .second ++
          (.counter (r.pc.toNat + i.width) :: (Scene.of i m r offered).jumpChecks jumps)))
      (fun e => rowOf r e =
        { pc := if jumps then ((Scene.of i m r offered).value .second).toNat else r.pc.toNat + 3
          base := r.relativeBase.toInt })
      (i.jump m r taken) := by
  unfold Instruction.jump
  refine (follows_value i m r offered .first).bind fun a ha => ?_
  refine (follows_value i m r offered .second).bind fun b hb => ?_
  refine (follows_advance i r).bind_one fun t ht => ?_
  rw [htaken a ha]
  by_cases h : jumps
  · rw [if_pos h, decide_eq_true h, Scene.jumpChecks, if_pos h]
    refine (follows_address hb).bind_pure fun place hplace => ?_
    simp only [rowOf, ht, ← hplace]
    rfl
  · rw [if_neg h, decide_eq_false h, Scene.jumpChecks, if_neg h]
    refine Follows.pure ?_
    simp only [rowOf, ht, hwidth]
    rfl

/-! ## Decoded instructions -/

/-- A decoded instruction stores through no parameter in immediate mode. -/
theorem decode_target {word : Word} {i : Instruction} (h : Instruction.decode word = .ok i)
    {p : Parameter} (hp : i.opcode.target? = some p) : i.modes.get p ≠ .immediate :=
  (Instruction.decode_eq_ok_iff.1 h).admits.target p hp

/-! ## The checks of a scene -/

namespace Scene

variable {s : Scene}

theorem checks_of_arity_three (h : s.opcode.arity = 3) :
    s.checks = s.operandChecks .first ++ (s.operandChecks .second ++ (s.operandChecks .third ++
      (.counter (s.pc + (s.opcode.arity + 1)) :: s.resultChecks))) := by
  have hstays : s.stays = false := by
    unfold stays
    cases hop : s.opcode <;> simp_all [Opcode.arity]
  simp [checks, hstays, h, Parameter.upTo]

theorem checks_of_arity_two (h : s.opcode.arity = 2) :
    s.checks = s.operandChecks .first ++ (s.operandChecks .second ++
      (.counter (s.pc + (s.opcode.arity + 1)) :: s.resultChecks)) := by
  have hstays : s.stays = false := by
    unfold stays
    cases hop : s.opcode <;> simp_all [Opcode.arity]
  simp [checks, hstays, h, Parameter.upTo]

theorem checks_of_arity_one (h : s.opcode.arity = 1) (hstays : s.stays = false) :
    s.checks = s.operandChecks .first ++
      (.counter (s.pc + (s.opcode.arity + 1)) :: s.resultChecks) := by
  simp [checks, hstays, h, Parameter.upTo]

/-- Input that is not there needs its place only. -/
theorem checks_of_starved (h : s.opcode = .input) (hinput : s.input = none) :
    s.checks = s.operandChecks .first ++ [] := by
  simp [checks, stays, h, hinput, Parameter.upTo, Opcode.arity]

end Scene

/-- A decoded instruction is refused with the complaint of the first check of its scene that does not
hold; if all hold, its effect is the row of the table. -/
theorem execute_follows {word : Word} {i : Instruction} (h : Instruction.decode word = .ok i)
    (m : Memory) (r : Registers) (offered : Option Word) :
    Follows (Scene.of i m r offered).checks (fun e => rowOf r e = (Scene.of i m r offered).row)
        (i.execute m r offered) ∧
      ((∃ e, i.execute m r offered = .ok e) ↔
        ∀ c ∈ (Scene.of i m r offered).checks, c.holds = true) := by
  have hfollows : Follows (Scene.of i m r offered).checks
      (fun e => rowOf r e = (Scene.of i m r offered).row) (i.execute m r offered) := by
    have htarget := fun p => decode_target h (p := p)
    clear h
    obtain ⟨word', op, modes⟩ := i
    cases op with
    | add =>
        rw [Scene.checks_of_arity_three rfl]
        refine follows_combine _ m r offered (htarget .third rfl) rfl fun a b ha hb => ?_
        have hsum : checked (a.add? b) = checked (Word.ofInt? (a.toInt + b.toInt)) := rfl
        rw [hsum, ha, hb]
        exact follows_ofInt? _
    | multiply =>
        rw [Scene.checks_of_arity_three rfl]
        refine follows_combine _ m r offered (htarget .third rfl) rfl fun a b ha hb => ?_
        have hproduct : checked (a.mul? b) = checked (Word.ofInt? (a.toInt * b.toInt)) := rfl
        rw [hproduct, ha, hb]
        exact follows_ofInt? _
    | lessThan =>
        rw [Scene.checks_of_arity_three rfl]
        refine follows_compare ⟨word', .lessThan, modes⟩ m r offered (htarget .third rfl) rfl
          fun a b ha hb => ?_
        rw [← ha, ← hb]
        simp only [Int64.lt_iff_toInt_lt]
    | equals =>
        rw [Scene.checks_of_arity_three rfl]
        refine follows_compare ⟨word', .equals, modes⟩ m r offered (htarget .third rfl) rfl
          fun a b ha hb => ?_
        rw [← ha, ← hb]
        simp only [← Int64.toInt_inj]
    | jumpIfTrue =>
        rw [Scene.checks_of_arity_two rfl]
        refine follows_jump ⟨word', .jumpIfTrue, modes⟩ m r offered rfl fun a ha => ?_
        rw [← ha]
        simp only [ne_eq, ← Int64.toInt_inj, Int64.toInt_zero]
    | jumpIfFalse =>
        rw [Scene.checks_of_arity_two rfl]
        refine follows_jump ⟨word', .jumpIfFalse, modes⟩ m r offered rfl fun a ha => ?_
        rw [← ha]
        simp only [← Int64.toInt_inj, Int64.toInt_zero]
    | input =>
        cases offered with
        | none =>
            rw [Scene.checks_of_starved rfl rfl]
            refine (follows_target ⟨word', .input, modes⟩ m r none (htarget .first rfl)).bind
              fun a _ => Follows.pure rfl
        | some v =>
            rw [Scene.checks_of_arity_one rfl rfl]
            refine (follows_target ⟨word', .input, modes⟩ m r (some v) (htarget .first rfl)).bind
              fun a ha => ?_
            refine (follows_advance ⟨word', .input, modes⟩ r).bind_pure fun t ht => ?_
            simp only [rowOf, ht, Option.map_some, ha]
            rfl
    | output =>
        rw [Scene.checks_of_arity_one rfl rfl]
        refine (follows_value ⟨word', .output, modes⟩ m r offered .first).bind fun a ha => ?_
        refine (follows_advance ⟨word', .output, modes⟩ r).bind_pure fun t ht => ?_
        simp only [rowOf, ht, Option.map_some, ha]
        rfl
    | adjustBase =>
        rw [Scene.checks_of_arity_one rfl rfl]
        refine (follows_value ⟨word', .adjustBase, modes⟩ m r offered .first).bind fun a ha => ?_
        refine (follows_advance ⟨word', .adjustBase, modes⟩ r).bind_one fun t ht => ?_
        have hsum : r.relativeBase.toInt + a.toInt = _ := congrArg _ ha
        refine (follows_sum hsum).bind_pure fun w hw => ?_
        simp only [rowOf, ht, hw]
        rfl
    | halt => exact Follows.pure rfl
  exact ⟨hfollows, hfollows.isOk_iff⟩

/-- An addition whose target lies two cells before address zero: only the last check of the third
parameter fails. -/
theorem execute_follows_negative_target :
    Instruction.decode 21101 = .ok ⟨21101, .add, ⟨.immediate, .immediate, .relative⟩⟩ ∧
      (let s := Scene.of ⟨21101, .add, ⟨.immediate, .immediate, .relative⟩⟩
        (.ofImage #[21101, 7, 8, -5]) ⟨0, 3⟩ none
      s.checks.find? (!·.holds) = some ⟨false, .negativeAddress (-2)⟩ ∧
        Follows s.checks (fun e => rowOf ⟨0, 3⟩ e = s.row)
          (Instruction.execute ⟨21101, .add, ⟨.immediate, .immediate, .relative⟩⟩
            (.ofImage #[21101, 7, 8, -5]) ⟨0, 3⟩ none)) :=
  have h : Instruction.decode 21101 = .ok ⟨21101, .add, ⟨.immediate, .immediate, .relative⟩⟩ := rfl
  ⟨h, by decide, (execute_follows h (.ofImage #[21101, 7, 8, -5]) ⟨0, 3⟩ none).1⟩

end Intcode.Table
