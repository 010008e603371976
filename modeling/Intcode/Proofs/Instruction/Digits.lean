import Mathlib.Algebra.Group.Int.Defs
import Mathlib.Algebra.Group.Nat.Defs
import Mathlib.Data.List.Basic
import Intcode.Instruction.Decode

/-!
# The digits of an instruction

Which words are read as instructions, told by their digits: the last two name the operation, and for each parameter
that the operation has there is one digit before them, which is its mode. The reader takes these digits off the word
one after another; here each of them is given by its place.

A word is read as what its digits spell (`Spells`), or it is refused for what is wrong with the first digit that is
wrong (`Refused`). No word has both, and none has either in two ways, so each of the two says all about the reader.

Main statement: `decode_digits`.
-/

namespace Intcode

/-! ## Operations and modes -/

theorem Opcode.ofCode?_eq_some_iff {c : Int} {op : Opcode} : ofCode? c = some op ↔ c = op.code := by
  constructor
  · intro h
    unfold ofCode? at h
    split at h <;> cases h <;> rfl
  · rintro rfl
    exact ofCode?_code op

theorem Opcode.code_inj {op op' : Opcode} : op.code = op'.code ↔ op = op' := by
  refine ⟨fun h => ?_, congrArg code⟩
  have hop := ofCode?_code op
  rw [h, ofCode?_code] at hop
  exact (Option.some.inj hop).symm

theorem Opcode.code_lt (op : Opcode) : op.code < 100 := by
  cases op <;> decide

theorem Opcode.arity_le (op : Opcode) : op.arity ≤ 3 := by
  cases op <;> decide

/-- An operation has the parameter that it stores to. -/
theorem Opcode.number_le_arity {op : Opcode} {p : Parameter} (h : op.target? = some p) : p.number ≤ op.arity := by
  cases op <;> cases h <;> decide

/-- The modes that an operation can have: `position` for the parameters that it has not, and not `immediate` for the one
that it stores to. -/
structure Opcode.Admits (op : Opcode) (modes : Modes) : Prop where
  unused : ∀ p : Parameter, op.arity < p.number → modes.get p = .position
  target : ∀ p ∈ op.target?, modes.get p ≠ .immediate

theorem Parameter.number_inj {p q : Parameter} : p.number = q.number ↔ p = q := by
  cases p <;> cases q <;> decide

theorem Parameter.number_pos (p : Parameter) : 0 < p.number := by
  cases p <;> decide

theorem Parameter.mem_upTo {p : Parameter} {n : Nat} (hn : n ≤ 3) : p ∈ upTo n ↔ p.number ≤ n := by
  obtain rfl | rfl | rfl | rfl : n = 0 ∨ n = 1 ∨ n = 2 ∨ n = 3 := by omega
  all_goals cases p <;> decide

/-- The parameters are counted through from one. -/
theorem Parameter.numbers_upTo {n : Nat} (hn : n ≤ 3) :
    (upTo n).map number = List.range' 1 (upTo n).length := by
  obtain rfl | rfl | rfl | rfl : n = 0 ∨ n = 1 ∨ n = 2 ∨ n = 3 := by omega
  all_goals rfl

theorem Mode.ofDigit?_eq_some_iff {d : Nat} {mode : Mode} : ofDigit? d = some mode ↔ mode.digit = d := by
  constructor
  · intro h
    unfold ofDigit? at h
    split at h <;> cases h <;> rfl
  · rintro rfl
    exact ofDigit?_digit mode

theorem Mode.digit_le (mode : Mode) : mode.digit ≤ 2 := by
  cases mode <;> decide

theorem Mode.digit_inj {mode mode' : Mode} : mode.digit = mode'.digit ↔ mode = mode' := by
  cases mode <;> cases mode' <;> decide

theorem Mode.ofDigit?_eq_none_iff {d : Nat} : ofDigit? d = none ↔ 2 < d := by
  constructor
  · intro h
    by_contra hle
    obtain rfl | rfl | rfl : d = 0 ∨ d = 1 ∨ d = 2 := by omega
    all_goals cases h
  · intro h
    cases hd : ofDigit? d with
    | none => rfl
    | some mode =>
        have := mode.digit_le
        have := ofDigit?_eq_some_iff.1 hd
        omega

theorem Modes.get_set (modes : Modes) (p q : Parameter) (mode : Mode) :
    (modes.set p mode).get q = if q = p then mode else modes.get q := by
  cases p <;> cases q <;> rfl

theorem Modes.ext_get {modes modes' : Modes} (h : ∀ p, modes.get p = modes'.get p) : modes = modes' := by
  obtain ⟨a, b, c⟩ := modes
  obtain ⟨a', b', c'⟩ := modes'
  obtain rfl : a = a' := h .first
  obtain rfl : b = b' := h .second
  obtain rfl : c = c' := h .third
  rfl

theorem Modes.get_default (p : Parameter) : Modes.get {} p = .position := by
  cases p <;> rfl

namespace Instruction

variable {w v : Word} {i i' : Instruction} {op op' : Opcode} {p : Parameter} {modes : Modes} {f f' : Fault}

/-! ## What a word spells -/

/-- The digit of a word at the place for the mode of a parameter. -/
def digit (w : Word) (p : Parameter) : Nat :=
  w.toInt.toNat / 10 ^ (p.number + 1) % 10

/-- The last two digits of a word, which is not negative, name an operation. -/
structure Names (w : Word) (op : Opcode) : Prop where
  nonneg : 0 ≤ w.toInt
  code : w.toInt % 100 = op.code

/-- An instruction is what the digits of a word say: the last two its operation, then one its mode for each of its
parameters; and these are modes that the operation admits. -/
structure Spells (w : Word) (i : Instruction) : Prop where
  word : i.word = w
  names : Names w i.opcode
  digits : ∀ p, p.number ≤ i.opcode.arity → (i.modes.get p).digit = digit w p
  admits : i.opcode.Admits i.modes

/-- What is wrong with a word that spells no instruction: its operation, else its first mode that is none, else the
mode of its target. -/
inductive Refused (w : Word) : Fault → Prop where
  | operation (hnone : ∀ op, ¬ Names w op) : Refused w (.unknownOpcode w)
  | mode {op : Opcode} {p : Parameter} (hop : Names w op) (hp : p.number ≤ op.arity) (hbad : 2 < digit w p)
      (hlower : ∀ q : Parameter, q.number < p.number → digit w q ≤ 2) :
      Refused w (.unknownMode p.number (digit w p))
  | target {op : Opcode} {p : Parameter} (hop : Names w op) (hmodes : ∀ q, q.number ≤ op.arity → digit w q ≤ 2)
      (hp : op.target? = some p) (himmediate : digit w p = 1) : Refused w (.immediateWrite p.number)

theorem Names.unique (h : Names w op) (h' : Names w op') : op = op' :=
  Opcode.code_inj.1 (Int.ofNat.inj (h.code.symm.trans h'.code))

theorem Spells.digit_le (h : Spells w i) (hp : p.number ≤ i.opcode.arity) : digit w p ≤ 2 := by
  rw [← h.digits p hp]
  exact (i.modes.get p).digit_le

theorem Spells.digit_ne_one (h : Spells w i) (hp : p ∈ i.opcode.target?) : digit w p ≠ 1 := by
  rw [← h.digits p (Opcode.number_le_arity hp)]
  exact fun hone => h.admits.target p hp (Mode.digit_inj.1 hone)

theorem Spells.unique (h : Spells w i) (h' : Spells w i') : i = i' := by
  obtain ⟨word, op, modes⟩ := i
  obtain ⟨word', op', modes'⟩ := i'
  obtain rfl : word = word' := h.word.trans h'.word.symm
  obtain rfl : op = op' := h.names.unique h'.names
  obtain rfl : modes = modes' := by
    refine Modes.ext_get fun p => ?_
    by_cases hp : p.number ≤ op.arity
    · exact Mode.digit_inj.1 ((h.digits p hp).trans (h'.digits p hp).symm)
    · exact (h.admits.unused p (Nat.not_le.1 hp)).trans (h'.admits.unused p (Nat.not_le.1 hp)).symm
  rfl

theorem Refused.not_spells (h : Refused w f) : ¬ Spells w i := by
  intro hi
  cases h with
  | operation hnone => exact hnone _ hi.names
  | mode hop hp hbad _ =>
      obtain rfl := hop.unique hi.names
      exact absurd (hi.digit_le hp) (Nat.not_le.2 hbad)
  | target hop _ hp himmediate =>
      obtain rfl := hop.unique hi.names
      exact hi.digit_ne_one hp himmediate

theorem Refused.unique (h : Refused w f) (h' : Refused w f') : f = f' := by
  cases h with
  | operation hnone =>
      cases h' with
      | operation => rfl
      | mode hop | target hop => exact absurd hop (hnone _)
  | @mode op p hop hp hbad hlower =>
      cases h' with
      | operation hnone => exact absurd hop (hnone _)
      | @mode op' q hop' hq hbad' hlower' =>
          have hle : ¬ p.number < q.number := fun hlt => Nat.not_le.2 hbad (hlower' p hlt)
          have hge : ¬ q.number < p.number := fun hlt => Nat.not_le.2 hbad' (hlower q hlt)
          obtain rfl : p = q := Parameter.number_inj.1 (by omega)
          rfl
      | target hop' hmodes =>
          obtain rfl := hop.unique hop'
          exact absurd (hmodes p hp) (Nat.not_le.2 hbad)
  | target hop hmodes hp himmediate =>
      cases h' with
      | operation hnone => exact absurd hop (hnone _)
      | mode hop' hq hbad' =>
          obtain rfl := hop.unique hop'
          exact absurd (hmodes _ hq) (Nat.not_le.2 hbad')
      | target hop' _ hp' =>
          obtain rfl := hop.unique hop'
          rw [hp] at hp'
          cases hp'
          rfl

/-! ## The reader -/

theorem opcode?_eq_some_iff : opcode? w = some op ↔ Names w op := by
  unfold opcode?
  constructor
  · intro h
    split at h
    · rename_i hw
      exact ⟨hw, Opcode.ofCode?_eq_some_iff.1 h⟩
    · cases h
  · intro h
    rw [if_pos h.nonneg]
    exact Opcode.ofCode?_eq_some_iff.2 h.code

/-- From a word without its last `j + 1` digits the modes of parameters that are counted through from `j` are read as
the digits at their places, or the lowest of these digits that is no mode is reported. -/
theorem decodeModes_cases (w : Word) {ps : List Parameter} {j : Nat}
    (hps : ps.map Parameter.number = List.range' j ps.length) :
    (∃ modes, decodeModes (w.toInt.toNat / 10 ^ (j + 1)) ps = .ok modes ∧
        (∀ p ∈ ps, (modes.get p).digit = digit w p) ∧ ∀ p, p ∉ ps → modes.get p = .position) ∨
      ∃ p ∈ ps, decodeModes (w.toInt.toNat / 10 ^ (j + 1)) ps = .error (.unknownMode p.number (digit w p)) ∧
        2 < digit w p ∧ ∀ q ∈ ps, q.number < p.number → digit w q ≤ 2 := by
  induction ps generalizing j with
  | nil => exact .inl ⟨{}, rfl, nofun, fun p _ => Modes.get_default p⟩
  | cons p ps ih =>
      rw [List.map_cons, List.length_cons, List.range'_succ, List.cons.injEq] at hps
      obtain ⟨rfl, hrest⟩ := hps
      have hnext : w.toInt.toNat / 10 ^ (p.number + 1) / 10 = w.toInt.toNat / 10 ^ (p.number + 1 + 1) := by
        rw [Nat.div_div_eq_div_mul, ← Nat.pow_succ]
      -- the other parameters come later, so `p` is the lowest one that can be reported, and no later mode replaces its own
      have habove : ∀ q ∈ ps, p.number < q.number := by
        intro q hq
        have hmem := List.mem_map_of_mem (f := Parameter.number) hq
        rw [hrest, List.mem_range'_1] at hmem
        omega
      have hdigit : w.toInt.toNat / 10 ^ (p.number + 1) % 10 = digit w p := rfl
      rw [decodeModes, hdigit, hnext]
      cases hmode : Mode.ofDigit? (digit w p) with
      | none =>
          refine .inr ⟨p, List.mem_cons_self, rfl, Mode.ofDigit?_eq_none_iff.1 hmode, fun q hq hlt => ?_⟩
          rcases List.mem_cons.1 hq with rfl | hq
          · omega
          · have := habove q hq
            omega
      | some mode =>
          rw [Mode.ofDigit?_eq_some_iff] at hmode
          rcases ih hrest with ⟨modes, hmodes, hused, hunused⟩ | ⟨q, hq, hmodes, hbad, hlower⟩
          · refine .inl ⟨modes.set p mode, by simp only [hmodes, Except.map], fun q hq => ?_, fun q hq => ?_⟩
            · rw [Modes.get_set]
              rcases List.mem_cons.1 hq with rfl | hq
              · rw [if_pos rfl, hmode]
              · rw [if_neg fun hqp => absurd (habove q hq) (by simp [hqp]), hused q hq]
            · rw [List.mem_cons, not_or] at hq
              rw [Modes.get_set, if_neg hq.1, hunused q hq.2]
          · refine .inr ⟨q, List.mem_cons_of_mem p hq, by simp only [hmodes, Except.map], hbad, fun q' hq' hlt => ?_⟩
            rcases List.mem_cons.1 hq' with rfl | hq'
            · rw [← hmode]
              exact mode.digit_le
            · exact hlower q' hq' hlt

theorem checkTarget_cases (op : Opcode) (modes : Modes) :
    (checkTarget op modes = .ok modes ∧ ∀ p ∈ op.target?, modes.get p ≠ .immediate) ∨
      ∃ p, op.target? = some p ∧ modes.get p = .immediate ∧
        checkTarget op modes = .error (.immediateWrite p.number) := by
  unfold checkTarget
  cases op.target? with
  | none => exact .inl ⟨rfl, nofun⟩
  | some p =>
      by_cases hp : modes.get p = .immediate
      · exact .inr ⟨p, rfl, hp, if_pos hp⟩
      · refine .inl ⟨if_neg hp, ?_⟩
        rintro q ⟨⟩
        exact hp

/-- A word is read as what it spells, or refused for what is wrong with it. -/
theorem decode_cases (w : Word) :
    (∃ i, decode w = .ok i ∧ Spells w i) ∨ ∃ f, decode w = .error f ∧ Refused w f := by
  unfold decode
  cases hop : opcode? w with
  | none =>
      refine .inr ⟨_, rfl, .operation fun op h => ?_⟩
      rw [opcode?_eq_some_iff.2 h] at hop
      cases hop
  | some op =>
      have hnames := opcode?_eq_some_iff.1 hop
      have hmem {p : Parameter} := Parameter.mem_upTo (p := p) op.arity_le
      have hread := decodeModes_cases w (Parameter.numbers_upTo op.arity_le)
      rw [show (10 : Nat) ^ (1 + 1) = 100 from rfl] at hread
      rcases hread with ⟨modes, hmodes, hused, hunused⟩ | ⟨p, hp, hmodes, hbad, hlower⟩
      · rcases checkTarget_cases op modes with ⟨hcheck, htarget⟩ | ⟨p, hp, himmediate, hcheck⟩
        · refine .inl ⟨⟨w, op, modes⟩, by simp only [hmodes, hcheck, bind, Except.bind, pure, Except.pure], ?_⟩
          exact ⟨rfl, hnames, fun p hp => hused p (hmem.2 hp),
            fun p hp => hunused p fun h => Nat.not_le.2 hp (hmem.1 h), htarget⟩
        · refine .inr ⟨.immediateWrite p.number, by simp only [hmodes, hcheck, bind, Except.bind], ?_⟩
          refine .target hnames (fun q hq => ?_) hp ?_
          · rw [← hused q (hmem.2 hq)]
            exact (modes.get q).digit_le
          · rw [← hused p (hmem.2 (Opcode.number_le_arity hp)), himmediate]
            rfl
      · refine .inr ⟨_, by simp only [hmodes, bind, Except.bind], .mode hnames (hmem.1 hp) hbad fun q hq => ?_⟩
        exact hlower q (hmem.2 (Nat.le_trans (Nat.le_of_lt hq) (hmem.1 hp))) hq

theorem decode_eq_ok_iff : decode w = .ok i ↔ Spells w i := by
  rcases decode_cases w with ⟨i', hdecode, hspells⟩ | ⟨f, hdecode, hrefused⟩
  · rw [hdecode]
    constructor
    · rintro ⟨⟩
      exact hspells
    · intro h
      rw [hspells.unique h]
  · rw [hdecode]
    exact ⟨nofun, fun h => absurd h hrefused.not_spells⟩

theorem decode_eq_error_iff : decode w = .error f ↔ Refused w f := by
  rcases decode_cases w with ⟨i, hdecode, hspells⟩ | ⟨f', hdecode, hrefused⟩
  · rw [hdecode]
    exact ⟨nofun, fun h => absurd hspells h.not_spells⟩
  · rw [hdecode]
    constructor
    · rintro ⟨⟩
      exact hrefused
    · intro h
      rw [hrefused.unique h]

/-! ## Words from their digits -/

/-- The number whose digits are the modes of some parameters, the lowest first, and before them those of `higher`. -/
def spellModes (modes : Modes) (higher : Nat) : List Parameter → Nat
  | [] => higher
  | p :: ps => (modes.get p).digit + 10 * spellModes modes higher ps

/-- The number that spells an operation with its modes, and has the digits of `higher` before them. -/
def spell (op : Opcode) (modes : Modes) (higher : Nat) : Nat :=
  op.code + 100 * spellModes modes higher (Parameter.upTo op.arity)

theorem digit_spellModes {higher j : Nat} {ps : List Parameter}
    (hps : ps.map Parameter.number = List.range' j ps.length) (hp : p ∈ ps) :
    spellModes modes higher ps / 10 ^ (p.number - j) % 10 = (modes.get p).digit := by
  induction ps generalizing j with
  | nil => cases hp
  | cons q ps ih =>
      rw [List.map_cons, List.length_cons, List.range'_succ, List.cons.injEq] at hps
      obtain ⟨rfl, hrest⟩ := hps
      have hdigit := (modes.get q).digit_le
      rcases List.mem_cons.1 hp with rfl | hp
      · simp only [spellModes, Nat.sub_self, Nat.pow_zero, Nat.div_one]
        omega
      · have hmem := List.mem_map_of_mem (f := Parameter.number) hp
        rw [hrest, List.mem_range'_1] at hmem
        have hshift : p.number - q.number = p.number - (q.number + 1) + 1 := by omega
        have hlast : ((modes.get q).digit + 10 * spellModes modes higher ps) / 10 = spellModes modes higher ps := by
          omega
        rw [spellModes, hshift, Nat.pow_succ', ← Nat.div_div_eq_div_mul, hlast]
        exact ih hrest hp

/-- A word without its last `j + 1` digits is spelled by the modes of parameters that are counted through from `j`, if
these are the digits at their places. -/
theorem eq_spellModes (w : Word) {j : Nat} {ps : List Parameter}
    (hps : ps.map Parameter.number = List.range' j ps.length) (hdigits : ∀ p ∈ ps, (modes.get p).digit = digit w p) :
    ∃ higher, w.toInt.toNat / 10 ^ (j + 1) = spellModes modes higher ps := by
  induction ps generalizing j with
  | nil => exact ⟨_, rfl⟩
  | cons p ps ih =>
      rw [List.map_cons, List.length_cons, List.range'_succ, List.cons.injEq] at hps
      obtain ⟨rfl, hrest⟩ := hps
      obtain ⟨higher, hhigher⟩ := ih hrest fun q hq => hdigits q (List.mem_cons_of_mem p hq)
      refine ⟨higher, ?_⟩
      rw [spellModes, hdigits p List.mem_cons_self, ← hhigher, Nat.pow_succ 10 (p.number + 1),
        ← Nat.div_div_eq_div_mul, digit]
      omega

/-- The words that spell an instruction are those put together from its operation and modes. -/
theorem spells_iff :
    Spells w i ↔ i.word = w ∧ i.opcode.Admits i.modes ∧ ∃ higher, w.toInt = spell i.opcode i.modes higher := by
  have hnumbers := Parameter.numbers_upTo i.opcode.arity_le
  have hmem {p : Parameter} := Parameter.mem_upTo (p := p) i.opcode.arity_le
  have hcode := i.opcode.code_lt
  constructor
  · intro h
    obtain ⟨higher, hhigher⟩ := eq_spellModes w hnumbers fun p hp => h.digits p (hmem.1 hp)
    refine ⟨h.word, h.admits, higher, ?_⟩
    have hnonneg := h.names.nonneg
    have hcode := h.names.code
    rw [spell, ← hhigher]
    omega
  · rintro ⟨hword, hadmits, higher, hw⟩
    refine ⟨hword, ⟨by omega, ?_⟩, fun p hp => ?_, hadmits⟩
    · rw [hw, spell]
      omega
    · have hshift : p.number + 1 = p.number - 1 + 2 := by
        have := p.number_pos
        omega
      have hrest : spell i.opcode i.modes higher / 10 ^ 2 =
          spellModes i.modes higher (Parameter.upTo i.opcode.arity) := by
        rw [spell]
        omega
      rw [digit, hw, Int.toNat_natCast, hshift, Nat.pow_add 10 (p.number - 1), Nat.mul_comm,
        ← Nat.div_div_eq_div_mul, hrest]
      exact (digit_spellModes hnumbers (hmem.2 hp)).symm

/-! ## Digits that are not read -/

/-- The digits of a number are those of its last `k` digits, as far as these reach. -/
theorem mod_pow_div_pow_mod_ten {n j k : Nat} (h : j < k) : n % 10 ^ k / 10 ^ j % 10 = n / 10 ^ j % 10 := by
  have hk : k = j + (k - j - 1 + 1) := by omega
  rw [hk, Nat.pow_add, Nat.mod_mul_right_div_self, Nat.mod_mod_of_dvd _ ⟨10 ^ (k - j - 1), Nat.pow_succ'⟩]

theorem digit_congr {k : Nat} (hp : p.number < k) (hnonneg : 0 ≤ w.toInt) (hnonneg' : 0 ≤ v.toInt)
    (h : v.toInt % 10 ^ (k + 1) = w.toInt % 10 ^ (k + 1)) : digit v p = digit w p := by
  have hlow : v.toInt.toNat % 10 ^ (k + 1) = w.toInt.toNat % 10 ^ (k + 1) := by
    rw [← Int.toNat_of_nonneg hnonneg, ← Int.toNat_of_nonneg hnonneg'] at h
    exact_mod_cast h
  have hplace : p.number + 1 < k + 1 := by omega
  calc digit v p = v.toInt.toNat % 10 ^ (k + 1) / 10 ^ (p.number + 1) % 10 := (mod_pow_div_pow_mod_ten hplace).symm
    _ = w.toInt.toNat % 10 ^ (k + 1) / 10 ^ (p.number + 1) % 10 := by rw [hlow]
    _ = digit w p := mod_pow_div_pow_mod_ten hplace

theorem Spells.of_higher (h : Spells w i) (hnonneg : 0 ≤ v.toInt)
    (hlow : v.toInt % 10 ^ (i.opcode.arity + 2) = w.toInt % 10 ^ (i.opcode.arity + 2)) :
    Spells v { i with word := v } := by
  have hdvd : (100 : Int) ∣ 10 ^ (i.opcode.arity + 2) := by
    rw [Int.pow_succ, Int.pow_succ]
    omega
  refine ⟨rfl, ⟨hnonneg, ?_⟩, fun p hp => ?_, h.admits⟩
  · rw [← Int.emod_emod_of_dvd _ hdvd, hlow, Int.emod_emod_of_dvd _ hdvd]
    exact h.names.code
  · exact (h.digits p hp).trans (digit_congr (Nat.lt_succ_of_le hp) h.names.nonneg hnonneg hlow).symm

/-! ## What is read -/

/-- A word is read as an instruction exactly if its digits are as they have to be, and then as the one that they spell;
the digits before those are not read. Whatever an operation admits is spelled by some word, with any digits before.
Any other word is refused for the first digit that is wrong. -/
theorem decode_digits (w : Word) :
    ((∃ i, decode w = .ok i) ↔
        ∃ op : Opcode, 0 ≤ w.toInt ∧ w.toInt % 100 = op.code ∧
          (∀ p : Parameter, p.number ≤ op.arity → digit w p ≤ 2) ∧ ∀ p ∈ op.target?, digit w p ≠ 1) ∧
      (∀ i, decode w = .ok i ↔ Spells w i) ∧
      (∀ i v, decode w = .ok i → 0 ≤ v.toInt →
        v.toInt % 10 ^ (i.opcode.arity + 2) = w.toInt % 10 ^ (i.opcode.arity + 2) →
          decode v = .ok { i with word := v }) ∧
      (∀ (op : Opcode) modes higher, op.Admits modes → spell op modes higher < 2 ^ 63 →
        ∃ v : Word, v.toInt = spell op modes higher ∧ decode v = .ok ⟨v, op, modes⟩) ∧
      ∀ f, decode w = .error f ↔ Refused w f := by
  refine ⟨⟨?_, ?_⟩, fun i => decode_eq_ok_iff, ?_, ?_, fun f => decode_eq_error_iff⟩
  · rintro ⟨i, hi⟩
    have h := decode_eq_ok_iff.1 hi
    exact ⟨i.opcode, h.names.nonneg, h.names.code, fun p => h.digit_le, fun p => h.digit_ne_one⟩
  · rintro ⟨op, hnonneg, hcode, hmodes, htarget⟩
    have hnames : Names w op := ⟨hnonneg, hcode⟩
    rcases decode_cases w with ⟨i, hi, -⟩ | ⟨f, -, hrefused⟩
    · exact ⟨i, hi⟩
    · cases hrefused with
      | operation hnone => exact absurd hnames (hnone op)
      | mode hop hp hbad _ =>
          obtain rfl := hop.unique hnames
          exact absurd (hmodes _ hp) (Nat.not_le.2 hbad)
      | target hop _ hp himmediate =>
          obtain rfl := hop.unique hnames
          exact absurd himmediate (htarget _ hp)
  · intro i v hi hnonneg hlow
    exact decode_eq_ok_iff.2 ((decode_eq_ok_iff.1 hi).of_higher hnonneg hlow)
  · intro op modes higher hadmits hfits
    have hv : (Int64.ofInt (spell op modes higher)).toInt = spell op modes higher :=
      Int64.toInt_ofInt_of_le (by omega) (by omega)
    exact ⟨_, hv, decode_eq_ok_iff.2 (spells_iff.2 ⟨rfl, hadmits, higher, hv⟩)⟩

/-- A comparison with a digit too many, and a multiplication with two modes that are none. -/
theorem decode_digits_comparison :
    decode 721107 = .ok ⟨721107, .lessThan, ⟨.immediate, .immediate, .relative⟩⟩ ∧
      decode 21107 = .ok ⟨21107, .lessThan, ⟨.immediate, .immediate, .relative⟩⟩ ∧
      (∃ v : Word, v.toInt = spell .lessThan ⟨.immediate, .immediate, .relative⟩ 7 ∧
        decode v = .ok ⟨v, .lessThan, ⟨.immediate, .immediate, .relative⟩⟩) ∧
      Refused 31402 (.unknownMode 1 4) := by
  have hread : decode 721107 = .ok ⟨721107, .lessThan, ⟨.immediate, .immediate, .relative⟩⟩ := rfl
  have hadmits : Opcode.lessThan.Admits ⟨.immediate, .immediate, .relative⟩ :=
    ((decode_digits 721107).2.1 _).1 hread |>.admits
  exact ⟨hread, (decode_digits 721107).2.2.1 _ 21107 hread (by decide) (by decide),
    (decode_digits 721107).2.2.2.1 .lessThan _ 7 hadmits (by decide), ((decode_digits 31402).2.2.2.2 _).1 rfl⟩

end Instruction

end Intcode
