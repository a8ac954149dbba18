import Pcode.Proofs.Wire.Reading

/-!
# Streams of records

Records that are written one after the other are read back in order, each from the bytes that it was
written as, and what follows the last of them is left.
-/
namespace Pcode.Wire

/-- The spaces that a record names: that of its address, and those of its operands. -/
def Record.spaces : Record → List SpaceId
  | .decoded b => b.address.space :: b.operations.flatMap fun o => o.operands.map Varnode.space
  | .unimplemented _ => []

/-- Writes records in order, up to the first that cannot be written. -/
def Writer.records : List Record → Writer Unit
  | [] => pure ()
  | x :: xs => do
    record x
    records xs

/-- Reads this number of records in order. -/
def Reader.records (r : Registry) : Nat → Reader (List Record)
  | 0 => pure []
  | n + 1 => do
    let x ← record r
    return x :: (← records r n)

theorem Writer.writes_records (xs : List Record) :
    Writes (records xs) (∀ x ∈ xs, FitsRecord x) (xs.flatMap recordBytes) := by
  induction xs with
  | nil => exact Writes.pure.congr (by simp)
  | cons x xs ih =>
      rw [List.flatMap_cons]
      exact ((writes_record x).bind ih).congr (by simp)

namespace Reader.Reads
variable {r : Registry} (hr : r.Numbered)
include hr

theorem record {x : Record} (hspaces : ∀ id ∈ x.spaces, ∃ s, r.find? id = some s)
    (hfits : FitsRecord x) : Reads (record r) (recordBytes x) x := by
  cases x with
  | unimplemented length =>
      refine position_bind fun start => (next _).bind ?_
      rw [if_pos rfl]
      exact (offset length).map
  | decoded b =>
      obtain ⟨s, hs⟩ := hspaces _ List.mem_cons_self
      have hoperation : ∀ o ∈ b.operations, Reads (Reader.operation r) (operationBytes o) o := by
        intro o ho
        refine operation hr ?_ (hfits.2 o ho)
        intro v hv
        apply hspaces
        exact List.mem_cons_of_mem _ <|
          List.mem_flatMap.mpr ⟨o, ho, List.mem_map.mpr ⟨v, hv, rfl⟩⟩
      have hoperations : Reads (Reader.items (Reader.operation r))
          (b.operations.flatMap operationBytes ++ [Mark.stop.byte]) b.operations :=
        items hoperation fun o _ => ⟨_, _, rfl, by decide⟩
      refine position_bind fun start => (next _).bind ?_
      rw [if_neg (by decide), if_pos rfl]
      exact (offset b.length).bind <| (space hr hs hfits.1).bind <|
        (offset b.address.offset).bind hoperations.map

theorem records {xs : List Record} (hspaces : ∀ x ∈ xs, ∀ id ∈ x.spaces, ∃ s, r.find? id = some s)
    (hfits : ∀ x ∈ xs, FitsRecord x) :
    Reads (records r xs.length) (xs.flatMap recordBytes) xs := by
  induction xs with
  | nil => exact pure []
  | cons x xs ih =>
      have hfirst := record hr (hspaces x List.mem_cons_self) (hfits x List.mem_cons_self)
      have hothers := ih (fun y hy => hspaces y (List.mem_cons_of_mem _ hy))
        fun y hy => hfits y (List.mem_cons_of_mem _ hy)
      rw [List.flatMap_cons]
      exact hfirst.bind hothers.map

end Reader.Reads

/-- Whatever bytes follow a stream of written records, reading as many records gives the records
that were written, in order, and ends where the stream does. -/
theorem read_written_records {history : List Registry.Request} {xs : List Record}
    {bytes : List UInt8}
    (hspaces : ∀ x ∈ xs, ∀ id ∈ x.spaces, ∃ s, (Registry.start.after history).find? id = some s)
    (hwritten : (Writer.records xs).exec [] = (.ok (), bytes)) (more : List UInt8) :
    (Reader.records (Registry.start.after history) xs.length).exec (.ofBytes (bytes ++ more)) =
      (.ok xs, ⟨bytes.length, more⟩) := by
  obtain ⟨hfits, rfl⟩ := (Writer.writes_records xs [] bytes).mp hwritten
  have h := Reader.Reads.records (Registry.numbered_after history) hspaces hfits 0 more
  rw [Nat.zero_add] at h
  exact h

/-- An opcode and sizes whose bytes are the mark of an end. -/
def lookalikes : List Record :=
  [.unimplemented 4,
    .decoded ⟨⟨.constant, 7⟩, [⟨.cast, some ⟨.constant, 0, 64⟩, [⟨.constant, 64, 8⟩]⟩], 3⟩]

theorem read_written_lookalikes :
    (Reader.records Registry.start 2).exec (.ofBytes
      ([32, 36, 96, 33, 35, 96, 32, 39, 96, 34, 96, 37, 32, 96, 96, 37, 32, 32, 33, 96, 40, 96, 96] ++
        [96, 33])) = (.ok lookalikes, ⟨23, [96, 33]⟩) := by
  have hspaces : ∀ x ∈ lookalikes, ∀ id ∈ x.spaces, id = SpaceId.constant := by decide
  refine @read_written_records [] lookalikes _ ?_ ?_ [96, 33]
  · intro x hx id hid
    rw [hspaces x hx id hid]
    exact ⟨_, rfl⟩
  · decide +kernel

end Pcode.Wire
