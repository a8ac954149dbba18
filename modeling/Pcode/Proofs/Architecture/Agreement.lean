import Pcode.Proofs.Architecture.Lifecycle
import Pcode.Proofs.Registry.Layout

/-!
# Agreement of the decode operations

An instruction is measured, lifted and printed in separate requests. To measure it is to look at its
first byte alone, to lift or print it at its operands as well, and none of them looks at a byte past
the end. They agree on its length and on whether there is one. Only lifting can still fail once the
instruction is read.
-/
namespace Pcode.Mini
open Architecture (configure)
open Config (Documents)
open Processor (Error)

namespace Instruction

/-! ## The bytes of an instruction -/

/-- The bytes begin with those of the instruction. -/
inductive Begins : List UInt8 → Instruction → Prop
  | idle (rest : List UInt8) : Begins (0x00 :: rest) idle
  | move (o : UInt8) (rest : List UInt8) : Begins (0x01 :: o :: rest) (move o)
  | add (o : UInt8) (rest : List UInt8) : Begins (0x02 :: o :: rest) (add o)
  | jump (lo hi : UInt8) (rest : List UInt8) : Begins (0x03 :: lo :: hi :: rest) (jump (word lo hi))
  | push (o : UInt8) (rest : List UInt8) : Begins (0x05 :: o :: rest) (push o)
  | systemCall (rest : List UInt8) : Begins (0x06 :: rest) systemCall
  | reserved (o : UInt8) (rest : List UInt8) : Begins (0xfe :: o :: rest) (reserved o)

/-- What stands behind a buffer is not looked at. -/
theorem scan_eq_read (address : Address) {bytes : List UInt8} {fetch : Nat → Option UInt8}
    (hfetch : ∀ k < bytes.length, fetch k = bytes[k]?) :
    scan address bytes.length fetch = some (read address bytes) := by
  obtain ⟨_, h⟩ := exists_scan address bytes
  rw [(h fetch hfetch).2, ← (h _ fun _ _ => rfl).2, scan_read]

/-- The length is measured as it is when the operands are looked at as well. -/
theorem measure_eq (address : Address) (bytes : List UInt8) :
    measure address bytes = (read address bytes).map length := by
  obtain ⟨outcome, h⟩ := exists_scan address bytes
  obtain ⟨hspan, hscan⟩ := h _ fun _ _ => rfl
  rw [span_measure] at hspan
  rw [scan_read] at hscan
  rw [Option.some_inj.mp hscan, Option.some_inj.mp hspan]

section Scan
variable {address : Address} {size : Nat} {fetch : Nat → Option UInt8}

theorem scan_eq_ok_iff {i : Instruction} :
    scan address size fetch = some (.ok i) ↔
      size ≠ 0 ∧ ∃ code length, fetch 0 = some code ∧ announced code = some length ∧
        length.toNat ≤ size ∧ assemble fetch = some i := by
  unfold scan span
  by_cases hsize : size = 0
  · simp [hsize]
  rcases fetch 0 with _ | code
  · simp [hsize]
  rcases hlength : announced code with _ | length
  · simp [hsize, hlength]
  by_cases hshort : size < length.toNat
  · simp [hsize, hlength, hshort, Nat.not_le.mpr hshort]
  · simp [hsize, hlength, hshort, Nat.le_of_not_lt hshort, Option.bind_eq_some_iff]

theorem defective_of_scan {e : Error} (h : scan address size fetch = some (.error e)) :
    ∃ defect, e = .defective address defect := by
  unfold scan span at h
  by_cases hsize : size = 0
  · rw [if_pos hsize] at h
    cases h
    exact ⟨_, rfl⟩
  rw [if_neg hsize] at h
  rcases hcode : fetch 0 with _ | code <;> rw [hcode] at h
  · cases h
  rcases hlength : announced code with _ | length
  · exact ⟨.unknownCode code, by simpa [hlength, eq_comm] using h⟩
  by_cases hshort : size < length.toNat
  · exact ⟨.cutShort, by simpa [hlength, hshort, eq_comm] using h⟩
  · simp [hlength, hshort, Option.bind_eq_some_iff] at h

end Scan

theorem read_eq_iff {address : Address} {bytes : List UInt8} {outcome : Except Error Instruction} :
    read address bytes = outcome ↔
      scan address bytes.length (fun k => bytes[k]?) = some outcome := by
  rw [scan_read, Option.some_inj]

theorem read_eq_ok_iff {address : Address} {bytes : List UInt8} {i : Instruction} :
    read address bytes = .ok i ↔ Begins bytes i := by
  rw [read_eq_iff, scan_eq_ok_iff]
  constructor
  · intro h
    obtain ⟨-, code, length, hcode, hlength, -, hi⟩ := h
    obtain ⟨n, hn⟩ : ∃ n, code.toNat = n := ⟨_, rfl⟩
    have hb : code = UInt8.ofNat n := by rw [← hn, UInt8.ofNat_toNat]
    unfold announced at hlength
    rw [hn] at hlength
    -- the operands stand behind the first byte
    split at hlength <;> cases hlength <;> subst hb <;>
      rcases bytes with _ | ⟨_, _ | ⟨_, _ | ⟨_, rest⟩⟩⟩ <;> cases hcode <;> cases hi <;> constructor
  · intro h
    cases h <;> exact ⟨nofun, _, _, rfl, rfl, by simp, rfl⟩

theorem defective_of_read {address : Address} {bytes : List UInt8} {e : Error}
    (h : read address bytes = .error e) : ∃ defect, e = .defective address defect :=
  defective_of_scan (read_eq_iff.mp h)

theorem length_pos (i : Instruction) : 1 ≤ i.length := by
  cases i <;> simp only [length] <;> decide

theorem Begins.length_le {bytes : List UInt8} {i : Instruction} (h : Begins bytes i) :
    i.length.toNat ≤ bytes.length := by
  cases h <;> simp [length]

/-- An instruction is known from its own bytes. -/
theorem Begins.of_take {bytes other : List UInt8} {i : Instruction} (h : Begins bytes i)
    (hother : other.take i.length.toNat = bytes.take i.length.toNat) : Begins other i := by
  rw [← List.take_append_drop i.length.toNat other, hother]
  cases h <;> constructor

end Instruction

/-! ## One reading, several operations -/

/-- What the decode operations make of an instruction, or of the cause for which there is none. -/
structure Follows (m : Mini) (address : Address) (bytes : List UInt8)
    (outcome : Except Error Instruction) : Prop where
  measure : Architecture.measure m address bytes = outcome.map Instruction.length
  emit : Architecture.emit m address bytes = .ofExcept (outcome.bind fun i =>
    (m.operations address i).map fun ops => (i.length, ops.map fun op => ⟨address, op⟩))
  print : Architecture.print m address bytes =
    .ofExcept (outcome.map fun i => (i.length, [⟨address, i.text.1, i.text.2⟩]))
  lift : Architecture.lift m address bytes = outcome.bind fun i =>
    (m.operations address i).map fun ops => ⟨address, ops, i.length⟩
  disassemble : Architecture.disassemble m address bytes =
    outcome.map fun i => ⟨address, i.text.1, i.text.2, i.length⟩

theorem measured_eq (m : Mini) (address : Address) (bytes : List UInt8) :
    m.measured address bytes = (m.instruction address bytes).map Instruction.length := by
  unfold measured instruction
  rcases m.processor.checkPlace address with e | ⟨⟩
  · rfl
  · exact Instruction.measure_eq address bytes

theorem follows_instruction (m : Mini) (address : Address) (bytes : List UInt8) :
    Follows m address bytes (m.instruction address bytes) := by
  have hemit : Architecture.emit m address bytes =
      .ofExcept ((m.instruction address bytes).bind fun i =>
        (m.operations address i).map fun ops => (i.length, ops.map fun op => ⟨address, op⟩)) := by
    change Decoding.ofExcept (m.lifted address bytes) = _
    unfold lifted
    rcases m.instruction address bytes with e | i
    · rfl
    · rcases h : m.operations address i with e | ops <;> simp [Except.bind, bind, h] <;> rfl
  have hprint : Architecture.print m address bytes =
      .ofExcept ((m.instruction address bytes).map fun i =>
        (i.length, [⟨address, i.text.1, i.text.2⟩])) := by
    change Decoding.ofExcept (m.printed address bytes) = _
    unfold printed
    rcases m.instruction address bytes with e | i <;> rfl
  rcases hcheck : m.processor.checkPlace address with e | ⟨⟩
  · have hinstruction : m.instruction address bytes = .error e := by
      unfold instruction
      rw [hcheck]
      rfl
    have hrefuses := refuses_of_checkPlace hcheck bytes
    rw [hinstruction] at hemit hprint ⊢
    exact ⟨hrefuses.measure, hemit, hprint, hrefuses.lift, hrefuses.disassemble⟩
  · refine ⟨measured_eq m address bytes, hemit, hprint, ?_, ?_⟩
    · unfold Architecture.lift
      change (m.processor.checkPlace address >>= _) = _
      rw [hcheck, hemit]
      rcases m.instruction address bytes with e | i
      · rfl
      · rcases h : m.operations address i with e | ops
        · simp [Except.bind, Except.map, bind, h, Decoding.ofExcept, Decoding.failed]
        · simp [Except.bind, Except.map, bind, h, Decoding.ofExcept, Block.collect, Block.empty,
            Function.comp_def, pure, Except.pure]
    · unfold Architecture.disassemble
      change (m.processor.checkPlace address >>= _) = _
      rw [hcheck, hprint]
      rcases m.instruction address bytes with e | i <;> rfl

/-- Of an instruction that is never lifted the length is known. -/
theorem length_of_unlifted {m : Mini} {address a : Address} {i : Instruction} {n : UInt64}
    (h : m.operations address i = .error (.unlifted a n)) : a = address ∧ n = i.length := by
  -- a register that is missing is another cause
  have hregister : ∀ number, m.register address number ≠ .error (.unlifted a n) := by
    intro number hr
    unfold register at hr
    split at hr <;> cases hr
  cases i with
  | idle | jump _ | systemCall => cases h
  | reserved o =>
      cases h
      exact ⟨rfl, rfl⟩
  | move o | add o =>
      rcases bind_eq_error.mp h with htarget | ⟨_, -, h⟩
      · exact absurd htarget (hregister _)
      · rcases bind_eq_error.mp h with hsource | ⟨_, -, h⟩
        · exact absurd hsource (hregister _)
        · cases h
  | push o =>
      rcases bind_eq_error.mp h with hsource | ⟨_, -, h⟩
      · exact absurd hsource (hregister _)
      · split at h <;> cases h

/-- The decode operations agree on the instruction at an address. -/
structure Agrees (m : Mini) (address : Address) (bytes : List UInt8) : Prop where
  /-- All of them follow from one reading, which looks at no byte but those given. -/
  inside : ∀ fetch : Nat → Option UInt8, (∀ k < bytes.length, fetch k = bytes[k]?) →
    ∃ outcome, Instruction.scan address bytes.length fetch = some outcome ∧
      Follows m address bytes outcome
  /-- An instruction that is measured has its bytes among those given, and is printed once, at its
  address. -/
  measured : ∀ n, Architecture.measure m address bytes = .ok n →
    1 ≤ n ∧ n.toNat ≤ bytes.length ∧ ∃ line : Line, line.address = address ∧
      Architecture.print m address bytes = ⟨[line], .ok n⟩ ∧
      Architecture.disassemble m address bytes = .ok ⟨address, line.mnemonic, line.operands, n⟩
  unmeasured : ∀ e, Architecture.measure m address bytes = .error e →
    Architecture.lift m address bytes = .error e ∧
      Architecture.disassemble m address bytes = .error e
  /-- A block is made of the operations that are passed on, and of nothing but the bytes it has. -/
  lifted : ∀ p, Architecture.lift m address bytes = .ok p →
    p.address = address ∧ Architecture.measure m address bytes = .ok p.length ∧
      Architecture.emit m address bytes = ⟨p.emit, .ok p.length⟩ ∧
      ∀ other, other.take p.length.toNat = bytes.take p.length.toNat →
        Architecture.lift m address other = .ok p
  /-- Where lifting fails, nothing is passed on, and an instruction that is never lifted can be
  skipped. -/
  unlifted : ∀ e, Architecture.lift m address bytes = .error e →
    Architecture.emit m address bytes = ⟨[], .error e⟩ ∧
      ∀ a n, e = .unlifted a n →
        a = address ∧ Architecture.measure m address bytes = .ok n ∧ 1 ≤ n

/-! ## Agreement -/

section Follows
variable {m : Mini} {address : Address} {bytes : List UInt8} {outcome : Except Error Instruction}
  (h : Follows m address bytes outcome)
include h

theorem Follows.exists_of_measure {n : UInt64} (hn : Architecture.measure m address bytes = .ok n) :
    ∃ i, outcome = .ok i ∧ i.length = n := by
  rw [h.measure] at hn
  cases outcome with
  | error e => cases hn
  | ok i => exact ⟨i, rfl, Except.ok.inj hn⟩

theorem Follows.exists_of_lift {p : Block} (hp : Architecture.lift m address bytes = .ok p) :
    ∃ i ops, outcome = .ok i ∧ m.operations address i = .ok ops ∧
      p = ⟨address, ops, i.length⟩ := by
  rw [h.lift] at hp
  cases outcome with
  | error e => cases hp
  | ok i =>
      change (m.operations address i).map _ = _ at hp
      rcases hops : m.operations address i with e | ops
      · rw [hops] at hp
        cases hp
      · rw [hops] at hp
        exact ⟨i, ops, rfl, hops, (Except.ok.inj hp).symm⟩

/-- Lifting fails because there is no instruction, or because it has no operations. -/
theorem Follows.fails_of_lift {e : Error} (he : Architecture.lift m address bytes = .error e) :
    outcome = .error e ∨ ∃ i, outcome = .ok i ∧ m.operations address i = .error e := by
  rw [h.lift] at he
  cases outcome with
  | error e' =>
      cases he
      exact .inl rfl
  | ok i =>
      change (m.operations address i).map _ = _ at he
      rcases hops : m.operations address i with e' | ops
      · rw [hops] at he
        cases he
        exact .inr ⟨i, rfl, hops⟩
      · rw [hops] at he
        cases he

end Follows

/-- A model that was configured at some time decodes where its alignment allows it, and its decode
operations agree there whatever the bytes are. -/
theorem decodings_agree {m₀ : Mini} {history : List Request} (h : Configured m₀ history)
    {address : Address}
    (haligned : (m₀.after history).processor.alignment.toNat ∣ address.offset.toNat)
    (bytes : List UInt8) : Agrees (m₀.after history) address bytes := by
  have hfrozen : (m₀.after history).processor.isFrozen = true :=
    (isFrozen_after_iff m₀ history).mpr (.inr h)
  generalize m₀.after history = m at *
  have hfollows : ∀ bytes, Follows m address bytes (Instruction.read address bytes) := by
    intro bytes
    have hread : m.instruction address bytes = Instruction.read address bytes := by
      unfold instruction
      rw [Processor.checkPlace_eq, if_pos hfrozen, if_pos haligned]
      rfl
    exact hread ▸ follows_instruction m address bytes
  refine ⟨?_, ?_, ?_, ?_, ?_⟩
  · intro fetch hfetch
    exact ⟨_, Instruction.scan_eq_read address hfetch, hfollows bytes⟩
  · intro n hn
    obtain ⟨i, hi, rfl⟩ := (hfollows bytes).exists_of_measure hn
    have hbegins := Instruction.read_eq_ok_iff.mp hi
    have hprint := (hfollows bytes).print
    have hdisassemble := (hfollows bytes).disassemble
    rw [hi] at hprint hdisassemble
    exact ⟨i.length_pos, hbegins.length_le, _, rfl, hprint, hdisassemble⟩
  · intro e he
    rw [(hfollows bytes).measure] at he
    rw [(hfollows bytes).lift, (hfollows bytes).disassemble]
    rcases hi : Instruction.read address bytes with e' | i <;> rw [hi] at he <;> cases he
    exact ⟨rfl, rfl⟩
  · intro p hp
    obtain ⟨i, ops, hi, hops, rfl⟩ := (hfollows bytes).exists_of_lift hp
    have hbegins := Instruction.read_eq_ok_iff.mp hi
    refine ⟨rfl, ?_, ?_, ?_⟩
    · rw [(hfollows bytes).measure, hi]
      rfl
    · rw [(hfollows bytes).emit, hi, Except.bind, hops]
      rfl
    · intro other hother
      have hi' : Instruction.read address other = .ok i :=
        Instruction.read_eq_ok_iff.mpr (hbegins.of_take hother)
      rw [(hfollows other).lift, hi', Except.bind, hops]
      rfl
  · intro e he
    rw [(hfollows bytes).emit, (hfollows bytes).measure]
    rcases (hfollows bytes).fails_of_lift he with hi | ⟨i, hi, hops⟩
    · rw [hi]
      refine ⟨rfl, ?_⟩
      rintro a n rfl
      obtain ⟨_, h⟩ := Instruction.defective_of_read hi
      cases h
    · rw [hi, Except.bind, hops]
      refine ⟨rfl, ?_⟩
      rintro a n rfl
      obtain ⟨rfl, rfl⟩ := length_of_unlifted hops
      exact ⟨rfl, rfl, i.length_pos⟩

/-- A configuration of a memory and a few registers, the stack pointer among them, with
instructions at multiples of two. -/
def stackMachine : Documents :=
  let register := fun (name offset : String) => Registry.tagOf "register"
    [("name", name), ("space", "register"), ("offset", offset), ("size", "4")]
  ⟨[⟨"sleigh", [⟨none, "bigendian", "false"⟩, ⟨none, "align", "2"⟩],
    [⟨"spaces", [⟨none, "defaultspace", "ram"⟩],
        [Registry.tagOf "space" [("name", "ram"), ("index", "1"), ("size", "4")],
          Registry.tagOf "space" [("name", "register"), ("index", "2"), ("size", "4")]]⟩,
      ⟨"register_data", [], [register "r0" "0", register "r1" "4", register "sp" "0x20"]⟩]⟩]⟩

/-- An even place in the memory. -/
def evenPlace : Address := ⟨⟨1⟩, 6⟩

/-- A register is pushed. Adding a register that the model does not have to one that it has fails,
but the instruction is measured. -/
theorem decodings_agree_stackMachine :
    Configured start [.configure stackMachine] ∧
      (start.after [.configure stackMachine]).processor.alignment.toNat ∣ evenPlace.offset.toNat ∧
      Agrees (start.after [.configure stackMachine]) evenPlace [0x05, 0x01, 0x77] ∧
      (Architecture.lift (start.after [.configure stackMachine]) evenPlace
        [0x05, 0x01, 0x77]).map Block.length = .ok 2 ∧
      Agrees (start.after [.configure stackMachine]) evenPlace [0x02, 0x19] ∧
      Architecture.lift (start.after [.configure stackMachine]) evenPlace [0x02, 0x19] =
        .error (.defective evenPlace (.noRegister 9)) := by
  have hok : ((configure stackMachine).exec start).1 = .ok () := by decide +kernel
  have hconfigured : Configured start [.configure stackMachine] :=
    ⟨[], stackMachine, [], rfl, hok⟩
  have haligned : (start.after [.configure stackMachine]).processor.alignment.toNat ∣
      evenPlace.offset.toNat := by
    have halignment : (start.after [.configure stackMachine]).processor.alignment = 2 := by
      decide +kernel
    rw [halignment]
    decide
  exact ⟨hconfigured, haligned, decodings_agree hconfigured haligned _, by decide +kernel,
    decodings_agree hconfigured haligned _, by decide +kernel⟩

end Pcode.Mini
