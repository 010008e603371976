import Intcode.Memory.Lemmas
import Intcode.Proofs.Instruction.Reach
import Intcode.Proofs.Machine.Failure
import Intcode.Proofs.Machine.Operation

/-!
# The program counter

Programs and hosts name cells by words, so a machine that was never given a checkpoint from elsewhere holds nothing but
zeros from `2 ^ 63` on. Zero is no instruction; so its program counter can pass that bound only by one instruction, and
an instruction takes four cells at most. Far from the end of the address space, no sum with the program counter
overflows.

Main statement: `program_counter_stays`.
-/

namespace Intcode

/-! ## Sums of words -/

namespace Table.Scene

variable {s : Scene} {c : Check}

/-- The check of a sum or product of words: a relative place, or what the instruction computes. -/
inductive ChecksWord (s : Scene) : Check → Prop where
  | relative {p : Parameter} (hp : p ∈ Parameter.upTo s.opcode.arity) (hmode : s.modes.get p = .relative) :
      ChecksWord s (.word (s.raw p + s.base))
  | add (hop : s.opcode = .add) : ChecksWord s (.word (s.value .first + s.value .second))
  | multiply (hop : s.opcode = .multiply) : ChecksWord s (.word (s.value .first * s.value .second))
  | adjustBase (hop : s.opcode = .adjustBase) : ChecksWord s (.word (s.base + s.value .first))

/-- Any other check is one of the program counter or of a place. -/
theorem check_cases (h : c ∈ s.checks) :
    s.ChecksWord c ∨ (∃ n ≤ 4, c = .counter (s.pc + n)) ∨ ∃ i, c = .place i := by
  rw [checks, List.mem_append, List.mem_flatMap] at h
  rcases h with ⟨p, hp, h⟩ | h
  · rw [operandChecks, List.mem_cons] at h
    rcases h with rfl | h
    · exact .inr (.inl ⟨p.number, by cases p <;> decide, rfl⟩)
    · cases hmode : s.modes.get p with
      | immediate => simp [hmode] at h
      | position =>
          rw [hmode] at h
          exact .inr (.inr ⟨_, List.mem_singleton.1 h⟩)
      | relative =>
          simp only [hmode, List.mem_cons, List.not_mem_nil, or_false] at h
          rcases h with rfl | rfl
          · exact .inl (.relative hp hmode)
          · exact .inr (.inr ⟨_, rfl⟩)
  · split at h
    · cases h
    · rcases List.mem_cons.1 h with rfl | h
      · exact .inr (.inl ⟨_, Nat.succ_le_succ s.opcode.arity_le, rfl⟩)
      · have hjump : ∀ {taken : Prop} [Decidable taken], c ∈ s.jumpChecks taken → ∃ i, c = .place i := by
          intro taken _ h
          unfold jumpChecks at h
          split at h
          · exact ⟨_, List.mem_singleton.1 h⟩
          · cases h
        unfold resultChecks at h
        cases hop : s.opcode with
        | add =>
            rw [hop] at h
            exact .inl (List.mem_singleton.1 h ▸ .add hop)
        | multiply =>
            rw [hop] at h
            exact .inl (List.mem_singleton.1 h ▸ .multiply hop)
        | adjustBase =>
            rw [hop] at h
            exact .inl (List.mem_singleton.1 h ▸ .adjustBase hop)
        | jumpIfTrue | jumpIfFalse =>
            rw [hop] at h
            exact .inr (.inr (hjump h))
        | input | output | lessThan | equals | halt =>
            rw [hop] at h
            cases h

end Table.Scene

/-- Far from the end of the address space an overflow is that of a sum or product of words. -/
theorem Instruction.overflows {i : Instruction} {m : Memory} {r : Registers} {offered : Option Word}
    (hi : fetch m r = .ok i) (hpc : r.pc.toNat + 4 < UInt64.size) (h : i.execute m r offered = .error .overflow) :
    ∃ c, (Table.Scene.of i m r offered).checks.find? (!·.holds) = some c ∧
      (Table.Scene.of i m r offered).ChecksWord c := by
  have hfollows := (Table.execute_follows hi m r offered).1
  unfold Table.Follows at hfollows
  cases hc : (Table.Scene.of i m r offered).checks.find? (!·.holds) with
  | none =>
      rw [hc] at hfollows
      obtain ⟨e, he, -⟩ := hfollows
      rw [h] at he
      cases he
  | some c =>
      rw [hc] at hfollows
      obtain ⟨f, hf, hreports⟩ := hfollows
      rw [h] at hf
      cases hf
      refine ⟨c, rfl, ?_⟩
      have hfails := List.find?_some hc
      rcases Table.Scene.check_cases (List.mem_of_find?_eq_some hc) with hword | ⟨n, hn, rfl⟩ | ⟨place, rfl⟩
      · exact hword
      · have hpc' : (Table.Scene.of i m r offered).pc = r.pc.toNat := rfl
        rw [hpc'] at hfails
        simp only [UInt64.size] at hpc
        simp only [Table.Check.counter, Bool.not_eq_true', decide_eq_false_iff_not] at hfails
        omega
      · obtain ⟨w, -, hw⟩ := hreports
        cases hw

/-- Reading a word as an instruction adds nothing up. -/
theorem Instruction.decode_ne_overflow (w : Word) : decode w ≠ .error .overflow := by
  intro h
  cases decode_eq_error_iff.1 h

namespace Machine

variable {m n : Machine} {e : Effect} {op : Operation} {reply : Reply} {budget : Option Nat} {fuel : Nat}
  {stop : RunEnd} {pc : Address} {word : Word}

/-! ## Machines without foreign checkpoints -/

/-- The machine comes from an image with room behind it, by operations of a host that restores only checkpoints of such
machines. -/
inductive Native : Machine → Prop where
  | start (image : Array Word) (policy : InputPolicy) (himage : image.size < wordEnd) : Native (ofImage image policy)
  | perform {m n : Machine} {op : Operation} {reply : Reply} {fuel : Nat} (hm : Native m)
      (hop : ∀ c, op ≠ .restore c) (hperform : m.perform fuel op = some (reply, n)) : Native n
  | restore {m k : Machine} (hm : Native m) (hk : Native k) : Native (m.restore k.checkpoint)

/-- All cells that words cannot name hold zero, and the program counter is at most one instruction beyond the others. -/
structure Confined (m : Machine) : Prop where
  image : m.image.size < wordEnd
  cells : ∀ a, wordEnd ≤ a.toNat → m.memory.get a = 0
  pc : m.registers.pc.toNat ≤ wordEnd + 3

/-- Where the machine is has room for an instruction. -/
theorem Confined.lt_size (hm : m.Confined) : m.registers.pc.toNat + 4 < UInt64.size := by
  have hpc := hm.pc
  simp only [wordEnd, UInt64.size] at *
  omega

theorem Confined.pc_lt (hm : m.Confined) {i : Instruction} (hi : Instruction.fetch m.memory m.registers = .ok i) :
    m.registers.pc.toNat < wordEnd := by
  by_contra hpc
  exact Instruction.get_ne_zero_of_fetch hi (hm.cells _ (Nat.not_lt.1 hpc))

theorem get_ofImage_eq_zero {image : Array Word} {a : Address} (himage : image.size < wordEnd) (ha : wordEnd ≤ a.toNat) :
    (Memory.ofImage image).get a = 0 := by
  rw [Memory.get_ofImage, Array.getElem?_eq_none (by omega)]
  rfl

theorem Confined.ofImage {image : Array Word} (policy : InputPolicy) (himage : image.size < wordEnd) :
    (ofImage image policy).Confined :=
  ⟨himage, fun _ => get_ofImage_eq_zero himage, Nat.zero_le _⟩

theorem Confined.after (hm : m.Confined) (hmove : m.move? = some e) : (m.after e).Confined := by
  obtain ⟨i, hattempt, -⟩ := attempt_of_move hmove
  obtain ⟨hi, he⟩ := attempt_eq_ok.1 hattempt
  cases e with
  | needInput => exact hm
  | halt => exact ⟨hm.image, hm.cells, hm.pc⟩
  | change c =>
      have hwithin := Instruction.execute_within he
      refine ⟨hm.image, fun a ha => ?_, ?_⟩
      · simp only [Machine.after, apply, Change.storeIn]
        cases hstore : c.store with
        | none => exact hm.cells a ha
        | some s =>
            have hs := hwithin.store s.1 s.2 hstore
            have hne : a ≠ s.1 := fun heq => absurd (heq ▸ ha) (Nat.not_le.2 hs)
            exact (Memory.get_set_of_ne _ _ hne).trans (hm.cells a ha)
      · have hpc := hm.pc_lt hi
        have hwidth := i.width_le
        simp only [Machine.after, apply]
        rcases hwithin.pc with hnext | hjump <;> omega

theorem Confined.step (hm : m.Confined) : m.step.2.Confined := by
  have hstepped := m.stepped_step
  generalize m.step = r at hstepped
  cases hstepped with
  | moves hmove => exact hm.after hmove
  | waits hs hstarves hpolicy => exact ⟨hm.image, hm.cells, hm.pc⟩
  | rests hs | fails hs hmove hfault => exact hm

theorem Confined.run (hm : m.Confined) (h : m.run fuel budget = some stop) : stop.2.Confined :=
  run_keeps (fun _ => Confined.step) hm h

theorem Confined.extend (hm : m.Confined) (ws : List Word) : (m.extend ws).Confined := by
  unfold Machine.extend
  split
  · exact hm
  · exact ⟨hm.image, hm.cells, hm.pc⟩

theorem Confined.restore (hm : m.Confined) (hn : n.Confined) : (m.restore n.checkpoint).Confined :=
  ⟨hm.image, hn.cells, hn.pc⟩

theorem Confined.perform (hm : m.Confined) (hop : ∀ c, op ≠ .restore c) (h : m.perform fuel op = some (reply, n)) :
    n.Confined := by
  cases performed h with
  | push ws => exact hm.extend ws
  | run hrun => exact hm.run hrun
  | step => exact hm.step
  | takeOutput => exact ⟨hm.image, hm.cells, hm.pc⟩
  | reset => exact ⟨hm.image, fun _ => get_ofImage_eq_zero hm.image, Nat.zero_le _⟩
  | restore c => exact absurd rfl (hop c)
  | @write place value b hplace =>
      refine ⟨hm.image, fun a ha => ?_, hm.pc⟩
      have hb := Memory.lt_wordEnd hplace
      have hne : a ≠ b := fun heq => absurd (heq ▸ ha) (Nat.not_le.2 hb)
      exact (Memory.get_set_of_ne _ _ hne).trans (hm.cells a ha)
  | refuse hplace => exact hm

theorem Native.confined (hm : m.Native) : m.Confined := by
  induction hm with
  | start image policy himage => exact .ofImage policy himage
  | perform _ hop hperform ih => exact ih.perform hop hperform
  | restore _ _ ih ih' => exact ih.restore ih'

/-! ## Overflows -/

/-- The first check that fails is that of a sum or product of words. -/
def OverflowsWord (m : Machine) : Prop :=
  ∃ i c, Instruction.fetch m.memory m.registers = .ok i ∧
    (Table.Scene.of i m.memory m.registers m.input.head?).checks.find? (!·.holds) = some c ∧
    (Table.Scene.of i m.memory m.registers m.input.head?).ChecksWord c

theorem attempt_of_fault {f : Fault} (h : m.fault? = some (.fault pc word f)) : m.attempt = .error f := by
  unfold fault? at h
  cases ha : m.attempt with
  | error f' =>
      rw [ha] at h
      cases h
      rfl
  | ok p =>
      obtain ⟨i, e⟩ := p
      rw [ha] at h
      cases e with
      | change c | halt => cases h
      | needInput =>
          -- what is missing is input, which is no fault of the instruction
          simp only at h
          split at h <;> cases h

theorem Confined.overflowsWord (hm : m.Confined) (h : m.fault? = some (.fault pc word .overflow)) :
    m.OverflowsWord := by
  have hattempt := attempt_of_fault h
  unfold attempt at hattempt
  cases hi : Instruction.fetch m.memory m.registers with
  | error f =>
      rw [hi] at hattempt
      cases hattempt
      exact absurd hi (Instruction.decode_ne_overflow _)
  | ok i =>
      cases hexec : i.execute m.memory m.registers m.input.head? with
      | error f =>
          simp only [hi, hexec, bind, Except.bind] at hattempt
          cases hattempt
          obtain ⟨c, hc, hword⟩ := Instruction.overflows hi hm.lt_size hexec
          exact ⟨i, c, hi, hc, hword⟩
      | ok e =>
          simp only [hi, hexec, bind, Except.bind] at hattempt
          cases hattempt

theorem Confined.overflowsWord_of_step (hm : m.Confined) (h : m.step = (.error (.fault pc word .overflow), n)) :
    n.OverflowsWord := by
  rw [step_error h]
  exact hm.overflowsWord (fault?_of_step h)

/-- A machine that was never given a foreign checkpoint has no word other than zero from `2 ^ 63` on, and its program
counter is at most three cells beyond. So the words of its parameters are always there and it can always move on; if it
overflows, in a step or at the end of a run, then in the place of a relative parameter or in what it adds, multiplies or
moves the relative base by. -/
theorem program_counter_stays (hm : m.Native) :
    (∀ a, m.memory.get a ≠ 0 → a.toNat ≤ 2 ^ 63 - 1) ∧
      m.registers.pc.toNat ≤ 2 ^ 63 + 3 ∧
      (∀ p, ∃ w, Operand.word m.memory m.registers p = .ok w) ∧
      (∀ i : Instruction, ∃ r, i.advance m.registers = .ok r) ∧
      (∀ pc word n, m.step = (.error (.fault pc word .overflow), n) → n.OverflowsWord) ∧
      ∀ fuel budget pc word n,
        m.run fuel budget = some (.error (.fault pc word .overflow), n) → n.OverflowsWord := by
  have hconfined := hm.confined
  have hroom := hconfined.lt_size
  refine ⟨fun a ha => ?_, hconfined.pc, fun p => ?_, fun i => ?_,
    fun pc word n h => hconfined.overflowsWord_of_step h, fun fuel budget pc word n h => ?_⟩
  · by_contra hle
    refine ha (hconfined.cells a ?_)
    unfold wordEnd
    omega
  · have hp : p.number ≤ 3 := by cases p <;> decide
    obtain ⟨a, ha, -⟩ := Operand.exists_behind (r := m.registers) (n := p.number) (by omega)
    exact ⟨_, by rw [Operand.word, ha]; rfl⟩
  · have hwidth := i.width_le
    obtain ⟨a, ha, -⟩ := Operand.exists_behind (r := m.registers) (n := i.width) (by omega)
    exact ⟨_, by rw [Instruction.advance, ha]; rfl⟩
  · have hn : n.Confined := hconfined.run h
    obtain ⟨-, -, hstep, -⟩ := failure_of_loop h
    exact hn.overflowsWord_of_step hstep

/-- A machine that has jumped to the last cell that a word can name, where the host puts an addition: its parameters are
zeros beyond, and it adds up two words that have no sum. -/
theorem program_counter_stays_last_cell :
    ∃ m : Machine, m.Native ∧ m.registers.pc.toNat = 2 ^ 63 - 1 ∧
      (∃ w, Operand.word m.memory m.registers .third = .ok w) ∧
      m.step = (.error (.fault 9223372036854775807 1 .overflow), m) ∧ m.OverflowsWord := by
  have hjumped : Native _ :=
    @Native.perform _ _ (.run (some 1)) (.ran (.ok .budgetExhausted)) 2
      (.start #[1106, 0, 9223372036854775807] .batch (by decide)) nofun rfl
  have hfirst : Native _ := @Native.perform _ _ (.write 0 9223372036854775807) (.wrote (.ok ())) 0 hjumped nofun rfl
  have hlast : Native _ := @Native.perform _ _ (.write 9223372036854775807 1) (.wrote (.ok ())) 0 hfirst nofun rfl
  obtain ⟨-, -, hwords, -, hstep, -⟩ := program_counter_stays hlast
  exact ⟨_, hlast, rfl, hwords .third, rfl, hstep _ _ _ rfl⟩

end Machine

end Intcode
