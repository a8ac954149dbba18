import Pcode.Proofs.Registry.Requests
import Pcode.Proofs.Spaces.Scaling

/-!
# Addresses of constants

A constant of a space without a resolver is the number of a word of the space. It resolves to the
first byte of this word, counted around the space, whatever the constant is, exactly where words
have the size of a power of two.
-/
namespace Pcode.Registry

theorem resolve?_of_no_resolver {r : Registry} {id : SpaceId} {s : Space}
    (hs : r.find? id = some s) (hfree : ∀ resolver, r.resolvers[id.index]? ≠ some (some resolver))
    (value size : UInt64) (point : Address) :
    r.resolve? id value size point =
      some ⟨⟨id, s.info.wrap (s.info.byteOffset value)⟩, value⟩ := by
  unfold resolve?
  split
  next resolver hresolver => exact absurd hresolver (hfree resolver)
  next => rw [hs, Option.map_some]

/-- In a space without a resolver that its pointers span, every constant is its own encoding and
resolves to an offset of the space, whatever size and point are passed: to the byte offset of the
word that it counts, reduced to sixty-four bits and then to the space. This is the first byte of
that word around the space exactly where sixty-four bits drop whole words, and elsewhere not the
first byte of any word. Whole words are dropped of all constants exactly where the size of a word is
a power of two. -/
theorem constants_resolve_to_words {r : Registry} {id : SpaceId} {s : Space}
    (hs : r.find? id = some s) (hfree : ∀ resolver, r.resolvers[id.index]? ≠ some (some resolver))
    (hspans : s.info.Spans) :
    (∀ value size point, ∃ offset, r.resolve? id value size point = some ⟨⟨id, offset⟩, value⟩ ∧
      offset ≤ s.info.highest ∧
      offset.toNat = s.info.wordSize.toNat * value.toNat % 2 ^ 64 %
        (s.info.wordSize.toNat * s.info.words) ∧
      (offset.toNat = s.info.wordStart value ↔ s.info.wordSize.toNat ∣ s.info.dropped value) ∧
      (s.info.wordSize.toNat ∣ offset.toNat ↔ s.info.wordSize.toNat ∣ s.info.dropped value)) ∧
    ((∀ value size point, ∃ offset, r.resolve? id value size point = some ⟨⟨id, offset⟩, value⟩ ∧
      offset.toNat = s.info.wordStart value) ↔ ∃ k, s.info.wordSize.toNat = 2 ^ k) := by
  have hresolve := resolve?_of_no_resolver hs hfree
  constructor
  · intro value size point
    refine ⟨s.info.wrap (s.info.byteOffset value), hresolve value size point, ?_, ?_,
      hspans.wrap_byteOffset_eq_iff value, hspans.wordSize_dvd_wrap_iff value⟩
    · exact s.info.wrap_le_highest _
    · rw [SpaceInfo.toNat_wrap, SpaceInfo.toNat_byteOffset, hspans.extent_eq]
  · rw [← hspans.forall_wrap_byteOffset_eq_iff]
    constructor
    · intro h value
      obtain ⟨offset, hoffset, hstart⟩ := h value 0 ⟨id, 0⟩
      cases (hresolve value 0 ⟨id, 0⟩).symm.trans hoffset
      exact hstart
    · intro h value size point
      exact ⟨_, hresolve value size point, h value⟩

/-- A memory whose words have three bytes. -/
def threeByteWords : List Request := [.insert (.ofMemory "ram" 1 4 3 .little 1)]

/-- The memory itself. -/
def threeByteSpace : Space :=
  (Space.ofMemory "ram" 1 4 3 .little 1).modifyInfo fun s => { s with shortcut := some 'r' }

theorem spans_threeByteSpace : threeByteSpace.info.Spans where
  word := by decide
  bound := by decide
  highest := by decide

/-- Three is no power of two, so not every constant resolves to its word. -/
theorem constants_resolve_to_words_threeBytes :
    (start.after threeByteWords).find? ⟨1⟩ = some threeByteSpace ∧
      (∀ resolver, (start.after threeByteWords).resolvers[1]? ≠ some (some resolver)) ∧
      threeByteSpace.info.Spans ∧
      ¬∀ value size point, ∃ offset,
        (start.after threeByteWords).resolve? ⟨1⟩ value size point =
          some ⟨⟨⟨1⟩, offset⟩, value⟩ ∧
        offset.toNat = threeByteSpace.info.wordStart value := by
  have hfound : (start.after threeByteWords).find? ⟨1⟩ = some threeByteSpace := by decide +kernel
  have hnone : (start.after threeByteWords).resolvers[1]? = some none := by rfl
  have hfree : ∀ resolver, (start.after threeByteWords).resolvers[1]? ≠ some (some resolver) := by
    intro resolver hsome
    cases hnone.symm.trans hsome
  refine ⟨hfound, hfree, spans_threeByteSpace, ?_⟩
  intro hall
  obtain ⟨k, hk⟩ :=
    (constants_resolve_to_words hfound hfree spans_threeByteSpace).2.mp hall
  have hthree : threeByteSpace.info.wordSize.toNat = 3 := by decide
  rw [hthree] at hk
  cases k with
  | zero => cases hk
  | succ k => omega

/-- The word with the number 2 ^ 63 has its place at the start of the memory. The constant resolves
to an offset where no word starts. -/
theorem constant_resolves_between_words :
    let r := start.after threeByteWords
    r.find? ⟨1⟩ = some threeByteSpace ∧ threeByteSpace.info.Spans ∧
      r.resolvers[1]? = some none ∧
      r.resolve? ⟨1⟩ 0x8000000000000000 8 ⟨⟨1⟩, 0⟩ =
        some ⟨⟨⟨1⟩, 0x200000000⟩, 0x8000000000000000⟩ ∧
      threeByteSpace.info.wordStart 0x8000000000000000 = 0 ∧
      ¬threeByteSpace.info.wordSize.toNat ∣ (0x200000000 : UInt64).toNat := by
  refine ⟨by decide +kernel, spans_threeByteSpace, rfl, by decide +kernel, by decide, by decide⟩

end Pcode.Registry
