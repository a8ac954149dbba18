import Pcode.Proofs.Registry.Consistency
import Pcode.Proofs.Registry.Repeats
import Pcode.Proofs.Spaces.Wrapping

/-!
# Values of two pieces

Two pieces that adjoin are one value where they are, if their space lets a value be addressed so.
All others are joined. Either way the bytes of the value are those of its pieces.
-/
namespace Pcode.Registry

/-- Two pieces that can be addressed where they are: they lie in one space, the less significant one
behind the more significant one in the byte order of the space, or the other way round if that is
little endian, and registers are addressed so unless they are reverse justified. -/
structure Adjoined (r : Registry) (hi : Address) (hiSize : UInt64) (lo : Address)
    (loSize : UInt64) (s : Space) : Prop where
  found : r.find? hi.space = some s
  same : lo.space = hi.space
  joinable : s.purpose = .processor ∨ s.purpose = .based
  adjacent :
    match s.info.byteOrder with
    | .big => lo.offset = s.info.wrap (hi.offset + hiSize)
    | .little => hi.offset = s.info.wrap (lo.offset + loSize)
  direct : s.purpose = .based ∨ r.defaultId = some hi.space ∨
    s.info.reversesJustification = false

theorem isJoinable_iff {p : Purpose} : p.isJoinable = true ↔ p = .processor ∨ p = .based := by
  cases p <;> decide

theorem adjoins_iff {hi lo : Address} {hiSize loSize : UInt64} {s : SpaceInfo} :
    hi.adjoins hiSize lo loSize s = true ↔ lo.space = hi.space ∧
      match s.byteOrder with
      | .big => lo.offset = s.wrap (hi.offset + hiSize)
      | .little => hi.offset = s.wrap (lo.offset + loSize) := by
  unfold Address.adjoins
  rw [Bool.and_eq_true, beq_iff_eq]
  refine and_congr eq_comm ?_
  cases s.byteOrder <;> exact beq_iff_eq.trans eq_comm

section Concat
variable {r : Registry} {hi lo : Address} {hiSize loSize : UInt64}

/-- Pieces that adjoin are addressed by the one that comes first in memory. -/
theorem adjoined?_eq_some_iff {hiSpace loSpace : Space} (hhi : r.find? hi.space = some hiSpace)
    (hlo : r.find? lo.space = some loSpace) (hjoinable : hiSpace.purpose.isJoinable = true)
    {a : Address} :
    r.adjoined? hi hiSize lo loSize hiSpace loSpace = some a ↔
      r.Adjoined hi hiSize lo loSize hiSpace ∧
        a = match hiSpace.info.byteOrder with | .big => hi | .little => lo := by
  have hmapped : lo.space = hi.space →
      ((hiSpace.purpose == .based || loSpace.purpose == .based || some hi.space == r.defaultId ||
        some lo.space == r.defaultId || !hiSpace.info.reversesJustification) = true ↔
      hiSpace.purpose = .based ∨ r.defaultId = some hi.space ∨
        hiSpace.info.reversesJustification = false) := by
    intro hsame
    rw [hsame, hhi] at hlo
    cases hlo
    rw [hsame]
    simp only [Bool.or_eq_true, beq_iff_eq, Bool.not_eq_true', eq_comm (a := some hi.space)]
    tauto
  unfold adjoined?
  simp only
  split
  next h =>
    rw [Bool.and_eq_true, adjoins_iff] at h
    obtain ⟨⟨hsame, hadjacent⟩, hdirect⟩ := h
    have hadjoined : r.Adjoined hi hiSize lo loSize hiSpace :=
      ⟨hhi, hsame, isJoinable_iff.mp hjoinable, hadjacent, (hmapped hsame).mp hdirect⟩
    rw [and_iff_right hadjoined]
    cases hiSpace.info.byteOrder <;> simp [eq_comm]
  next h =>
    refine iff_of_false (Option.some_ne_none a).symm fun hadjoined => h ?_
    rw [Bool.and_eq_true, adjoins_iff]
    exact ⟨⟨hadjoined.1.same, hadjoined.1.adjacent⟩,
      (hmapped hadjoined.1.same).mpr hadjoined.1.direct⟩

theorem exec_concat_of_adjoined {s : Space} (h : r.Adjoined hi hiSize lo loSize s) :
    (concat hi hiSize lo loSize).exec r =
      (.ok (match s.info.byteOrder with | .big => hi | .little => lo), r) := by
  have hjoinable := isJoinable_iff.mpr h.joinable
  have hlo : r.find? lo.space = some s := h.same ▸ h.found
  rw [exec_concat, h.found, hlo]
  simp only [hjoinable, Bool.and_self, if_true,
    (adjoined?_eq_some_iff h.found hlo hjoinable).mpr ⟨h, rfl⟩]

/-- Other pieces are joined, if they can be. -/
theorem exec_concat_of_not_adjoined (h : ¬∃ s, r.Adjoined hi hiSize lo loSize s) {a : Address}
    {t : Registry} (hok : (concat hi hiSize lo loSize).exec r = (.ok a, t)) :
    (joinAddress [.ofAddress hi hiSize, .ofAddress lo loSize] 0).exec r = (.ok a, t) := by
  rw [exec_concat] at hok
  split at hok
  next hiSpace loSpace hhi hlo =>
    split at hok
    next hjoinable =>
      rw [Bool.and_eq_true] at hjoinable
      split at hok
      next address haddress =>
        exact absurd ⟨_, ((adjoined?_eq_some_iff hhi hlo hjoinable.1).mp haddress).1⟩ h
      next => exact hok
    next => cases hok
  next => cases hok

/-- Only pieces of memory, registers or frames are made one value. -/
theorem exists_joinable_of_concat {a : Address} {t : Registry}
    (hok : (concat hi hiSize lo loSize).exec r = (.ok a, t)) :
    ∀ piece ∈ [hi, lo], ∃ s, r.find? piece.space = some s ∧
      (s.purpose = .processor ∨ s.purpose = .based) := by
  rw [exec_concat] at hok
  split at hok
  next hiSpace loSpace hhi hlo =>
    split at hok
    next hjoinable =>
      rw [Bool.and_eq_true, isJoinable_iff, isJoinable_iff] at hjoinable
      simpa [hhi, hlo] using hjoinable
    next => cases hok
  next => cases hok

/-- An address of joined pieces is that of the one joined value that has them. -/
theorem exec_joinAddress_ok {pieces : List Varnode} {logical : UInt64} (hr : Indexed r)
    {a : Address} {t : Registry} (h : (joinAddress pieces logical).exec r = (.ok a, t)) :
    ∃ v, v.whole.address = a ∧ t.Answers pieces v := by
  rw [exec_joinAddress] at h
  rcases hjoin : (join pieces logical).exec r with ⟨e | v, u⟩
  · rw [hjoin] at h
    cases h
  · rw [hjoin] at h
    cases h
    refine ⟨v, rfl, ?_⟩
    rcases join_eq_ok hr hjoin with ⟨hold, rfl⟩ | ⟨-, hnew, -⟩
    · exact hold
    · exact hnew

end Concat

/-- The space of joined values is where joined values are, as long as there are no more spaces than
handles. -/
theorem exists_joined_of_mem {history : List Request} {v : Joined}
    (hv : v ∈ (start.after history).joins) (hfew : (start.after history).size < 2 ^ 32) :
    ∃ s, (start.after history).find? v.whole.space = some s ∧ s.purpose = .joined := by
  have hrole := (placed_after history).space v hv
  obtain ⟨s, hs, hgoes, hid⟩ := (tabled_after history).idInRole?_eq_some_iff.mp hrole
  exact ⟨s, hid ▸ (numbered_after history).find?_id hfew hs, hgoes⟩

/-- No byte is misplaced where two pieces are made one value. Pieces that adjoin are addressed where
they are, and the registry is left as it was: the bytes at the address are those of the more
significant piece followed by those of the other. For all other pieces the address, if there is one,
is that of the one joined value that has these two pieces, in the space of joined values. There is
an address only for pieces in spaces of memory, registers or frames. -/
theorem concat_keeps_bytes (history : List Request) {hi lo : Address} {hiSize loSize : UInt64}
    (hhi : hi.offset.toNat + hiSize.toNat < 2 ^ 64)
    (hlo : lo.offset.toNat + loSize.toNat < 2 ^ 64) :
    let r := start.after history
    (∀ s, r.Adjoined hi hiSize lo loSize s →
      ∃ a, (concat hi hiSize lo loSize).exec r = (.ok a, r) ∧ a.space = hi.space ∧
        s.info.byteOffsets a.offset.toNat (hiSize.toNat + loSize.toNat) =
          s.info.byteOffsets hi.offset.toNat hiSize.toNat ++
            s.info.byteOffsets lo.offset.toNat loSize.toNat) ∧
    ((¬∃ s, r.Adjoined hi hiSize lo loSize s) →
      ∀ a t, (concat hi hiSize lo loSize).exec r = (.ok a, t) →
        ∃ v, v.whole.address = a ∧
          (∀ w, w ∈ t.joins ∧ w.pieces = [.ofAddress hi hiSize, .ofAddress lo loSize] ↔ w = v) ∧
          (t.size < 2 ^ 32 → ∃ s, t.find? a.space = some s ∧ s.purpose = .joined)) ∧
    ∀ a t, (concat hi hiSize lo loSize).exec r = (.ok a, t) →
      ∀ piece ∈ [hi, lo], ∃ s, r.find? piece.space = some s ∧
        (s.purpose = .processor ∨ s.purpose = .based) := by
  intro r
  refine ⟨?_, ?_, fun a t => exists_joinable_of_concat⟩
  · intro s h
    have hadjacent : match s.info.byteOrder with
        | .big => lo.offset.toNat = (hi.offset.toNat + hiSize.toNat) % s.info.extent
        | .little => hi.offset.toNat = (lo.offset.toNat + loSize.toNat) % s.info.extent := by
      have hoffset := h.adjacent
      cases horder : s.info.byteOrder with
      | big =>
          rw [horder] at hoffset
          simp only at hoffset ⊢
          rw [hoffset, SpaceInfo.toNat_wrap, UInt64.toNat_add, Nat.mod_eq_of_lt hhi]
      | little =>
          rw [horder] at hoffset
          simp only at hoffset ⊢
          rw [hoffset, SpaceInfo.toNat_wrap, UInt64.toNat_add, Nat.mod_eq_of_lt hlo]
    refine ⟨_, exec_concat_of_adjoined h, ?_, ?_⟩
    · cases s.info.byteOrder with
      | big => rfl
      | little => exact h.same
    · rw [SpaceInfo.byteOffsets_append hadjacent]
      cases s.info.byteOrder <;> rfl
  · intro h a t hok
    have ht : t = start.after (history ++ [.concat hi hiSize lo loSize]) := by
      rw [after_append]
      exact (congrArg Prod.snd hok).symm
    have hjoined := exec_concat_of_not_adjoined h hok
    obtain ⟨v, rfl, hanswers⟩ := exec_joinAddress_ok (indexed_after history) hjoined
    refine ⟨v, rfl, ?_, ?_⟩
    · intro w
      rw [ht] at hanswers ⊢
      have hindexed := indexed_after (history ++ [.concat hi hiSize lo loSize])
      have hv := hindexed.joinOf?_eq_some_iff.mpr ⟨hanswers.mem, hanswers.made⟩
      rw [← hindexed.joinOf?_eq_some_iff, hv, Option.some.injEq, eq_comm]
    · intro hfew
      rw [ht] at hanswers hfew ⊢
      exact exists_joined_of_mem hanswers.mem hfew

/-- A big-endian memory of 256 bytes, reverse justified, that is the default space. -/
def smallMemory : List Request :=
  [.insert (.ofMemory "ram" 1 1 1 .big 1), .reverseJustify ⟨1⟩, .chooseDefault ⟨1⟩,
    .insert (.ofJoins 2)]

/-- The memory itself. -/
def smallMemorySpace : Space :=
  (Space.ofMemory "ram" 1 1 1 .big 1).modifyInfo fun s =>
    { s with shortcut := some 'r', properties := s.properties.insert .reverseJustification }

/-- The last two bytes of the memory and the first two are one value, and in the other order they
are joined. -/
theorem concat_keeps_bytes_smallMemory :
    (∃ s, (start.after smallMemory).Adjoined ⟨⟨1⟩, 0xfe⟩ 2 ⟨⟨1⟩, 0⟩ 2 s ∧
      (concat ⟨⟨1⟩, 0xfe⟩ 2 ⟨⟨1⟩, 0⟩ 2).exec (start.after smallMemory) =
        (.ok ⟨⟨1⟩, 0xfe⟩, start.after smallMemory) ∧
      s.info.byteOffsets 0xfe 4 = s.info.byteOffsets 0xfe 2 ++ s.info.byteOffsets 0 2 ∧
      s.info.byteOffsets 0xfe 4 = [0xfe, 0xff, 0, 1]) ∧
    (¬∃ s, (start.after smallMemory).Adjoined ⟨⟨1⟩, 0⟩ 2 ⟨⟨1⟩, 0xfe⟩ 2 s) ∧
    ∃ t, (concat ⟨⟨1⟩, 0⟩ 2 ⟨⟨1⟩, 0xfe⟩ 2).exec (start.after smallMemory) = (.ok ⟨⟨2⟩, 0⟩, t) ∧
      ∃ v, v.whole.address = ⟨⟨2⟩, 0⟩ ∧
        ∀ w, w ∈ t.joins ∧ w.pieces = [⟨⟨1⟩, 0, 2⟩, ⟨⟨1⟩, 0xfe, 2⟩] ↔ w = v := by
  have hfound : (start.after smallMemory).find? ⟨1⟩ = some smallMemorySpace := by decide +kernel
  have hend : (0 : UInt64) = smallMemorySpace.info.wrap (0xfe + 2) := by decide +kernel
  have hwraps : (start.after smallMemory).Adjoined ⟨⟨1⟩, 0xfe⟩ 2 ⟨⟨1⟩, 0⟩ 2 smallMemorySpace :=
    ⟨hfound, rfl, .inl rfl, hend, .inr (.inl (by decide +kernel))⟩
  have hapart : ¬∃ s, (start.after smallMemory).Adjoined ⟨⟨1⟩, 0⟩ 2 ⟨⟨1⟩, 0xfe⟩ 2 s := by
    intro h
    obtain ⟨s, h⟩ := h
    cases hfound.symm.trans h.found
    have hstart : (0xfe : UInt64) = smallMemorySpace.info.wrap (0 + 2) := h.adjacent
    exact absurd hstart (by decide +kernel)
  have hjoined : ((concat ⟨⟨1⟩, 0⟩ 2 ⟨⟨1⟩, 0xfe⟩ 2).exec (start.after smallMemory)).1 =
      .ok ⟨⟨2⟩, 0⟩ := by decide +kernel
  rcases hexec : (concat ⟨⟨1⟩, 0⟩ 2 ⟨⟨1⟩, 0xfe⟩ 2).exec (start.after smallMemory) with ⟨result, t⟩
  rw [hexec] at hjoined
  cases hjoined
  obtain ⟨v, hv, hunique, -⟩ :=
    (@concat_keeps_bytes smallMemory ⟨⟨1⟩, 0⟩ ⟨⟨1⟩, 0xfe⟩ 2 2 (by decide) (by decide)).2.1
      hapart _ t hexec
  obtain ⟨a, ha, -, hbytes⟩ :=
    (@concat_keeps_bytes smallMemory ⟨⟨1⟩, 0xfe⟩ ⟨⟨1⟩, 0⟩ 2 2 (by decide) (by decide)).1
      _ hwraps
  have haddress : (⟨⟨1⟩, 0xfe⟩ : Address) = a :=
    Except.ok.inj (congrArg Prod.fst ((exec_concat_of_adjoined hwraps).symm.trans ha))
  subst haddress
  exact ⟨⟨smallMemorySpace, hwraps, ha, hbytes, by decide +kernel⟩, hapart, t, rfl, v, hv, hunique⟩

end Pcode.Registry
