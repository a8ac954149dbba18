import Mathlib.Data.Char
import Mathlib.Data.List.Iterate
import Mathlib.Tactic.Tauto
import Pcode.Registry.Shortcut

/-!
# The search for a free character

From a character that is taken the search goes through the whole alphabet, where `a` comes behind
`z`, and so finds the first letter that is free.
-/
namespace Pcode.Shortcut

/-- The alphabet, in order. -/
def letters : List Char := (List.range 26).map fun k => Char.ofNat ('a'.toNat + k)

/-- The letters behind a character, up to the end of the alphabet, and then those before it. -/
def lettersBehind (c : Char) : List Char :=
  letters.filter (fun d => c < d) ++ letters.filter (fun d => d < c)

/-- The letters are decided by their numbers, since there are too many characters to try them all. -/
theorem forall_mem_letters {P : Char → Prop} (h : ∀ k < 26, P (Char.ofNat ('a'.toNat + k))) :
    ∀ c ∈ letters, P c := by
  intro c hc
  obtain ⟨k, hk, rfl⟩ := List.mem_map.mp hc
  exact h k (List.mem_range.mp hk)

theorem le_of_mem_letters : ∀ c ∈ letters, 'a' ≤ c ∧ c ≤ 'z' := forall_mem_letters (by decide)

theorem mem_letters_iff {c : Char} : c ∈ letters ↔ 'a' ≤ c ∧ c ≤ 'z' := by
  refine ⟨le_of_mem_letters c, ?_⟩
  intro h
  have hlow : 97 ≤ c.toNat := h.1
  have hhigh : c.toNat ≤ 122 := h.2
  refine List.mem_map.mpr ⟨c.toNat - 97, List.mem_range.mpr (by omega), ?_⟩
  change Char.ofNat (97 + (c.toNat - 97)) = c
  rw [Nat.add_sub_cancel' hlow, Char.ofNat_toNat]

theorem mem_lettersBehind_iff {c d : Char} : d ∈ lettersBehind c ↔ d ∈ letters ∧ d ≠ c := by
  unfold lettersBehind
  rw [List.mem_append, List.mem_filter, List.mem_filter, decide_eq_true_iff, decide_eq_true_iff,
    ← and_or_left, lt_or_lt_iff_ne, ne_comm]

/-- Behind a character that is no letter there is the whole alphabet. -/
theorem lettersBehind_of_not_mem {c : Char} (hc : c ∉ letters) : lettersBehind c = letters := by
  unfold lettersBehind
  rcases lt_or_ge c 'a' with hlow | hlow
  · rw [List.filter_eq_self.mpr, List.filter_eq_nil_iff.mpr, List.append_nil]
    · intro d hd
      simpa using hlow.le.trans (le_of_mem_letters d hd).1
    · intro d hd
      simpa using hlow.trans_le (le_of_mem_letters d hd).1
  · have hhigh : 'z' < c := not_le.mp fun h => hc (mem_letters_iff.mpr ⟨hlow, h⟩)
    rw [List.filter_eq_self (p := fun d => d < c).mpr, List.filter_eq_nil_iff.mpr, List.nil_append]
    · intro d hd
      simpa using (le_of_mem_letters d hd).2.trans hhigh.le
    · intro d hd
      simpa using (le_of_mem_letters d hd).2.trans_lt hhigh

theorem next_of_not_mem {c : Char} (hc : c ∉ letters) : next c = 'a' := by
  unfold next
  rw [if_neg fun h => hc (mem_letters_iff.mpr ⟨h.1, h.2.le⟩)]

/-- The search meets letters only. -/
theorem next_mem_letters (c : Char) : next c ∈ letters := by
  by_cases hc : c ∈ letters
  · exact forall_mem_letters (P := fun c => next c ∈ letters) (by decide) c hc
  · rw [next_of_not_mem hc]
    decide

theorem iterate_next_a : List.iterate next 'a' 26 = letters := by decide

/-- From a letter, the search meets the others in turn and comes back to it. -/
theorem iterate_next_of_mem :
    ∀ c ∈ letters, List.iterate next c 27 = c :: (lettersBehind c ++ [c]) :=
  forall_mem_letters (by decide +kernel)

theorem iterate_next_of_not_mem {c : Char} (hc : c ∉ letters) :
    List.iterate next c 27 = c :: lettersBehind c := by
  rw [lettersBehind_of_not_mem hc, ← iterate_next_a, List.iterate, next_of_not_mem hc]

section Search
variable {taken : List (Char × SpaceId)} {c : Char}

theorem free?_eq_find?_iterate (n : Nat) :
    free? taken n c = (List.iterate next c (n + 1)).find? fun d => !(taken.lookup d).isSome := by
  induction n generalizing c with
  | zero =>
      rw [List.iterate, List.iterate, List.find?_singleton, free?]
      cases (taken.lookup c).isSome <;> rfl
  | succ n ih =>
      rw [List.iterate, List.find?_cons, free?, ih]
      cases (taken.lookup c).isSome <;> rfl

/-- The search takes the first free one of the characters from `c` on, each of which it looks at if
that is needed. -/
theorem free?_eq_find? :
    free? taken 26 c = (c :: lettersBehind c).find? fun d => !(taken.lookup d).isSome := by
  rw [free?_eq_find?_iterate]
  by_cases hc : c ∈ letters
  · rw [iterate_next_of_mem c hc, List.find?_cons, List.find?_cons]
    cases h : !(taken.lookup c).isSome with
    | true => rfl
    | false =>
        simp only [List.find?_append, List.find?_singleton, h, Bool.false_eq_true, if_false,
          Option.or_none]
  · rw [iterate_next_of_not_mem hc]

/-- When no character is found, the first one and all letters are taken. -/
theorem isSome_lookup_of_free?_eq_none (h : free? taken 26 c = none) {d : Char}
    (hd : d = c ∨ d ∈ letters) : (taken.lookup d).isSome = true := by
  rw [free?_eq_find?, List.find?_eq_none] at h
  have hmem : d ∈ c :: lettersBehind c := by
    rw [List.mem_cons, mem_lettersBehind_iff]
    tauto
  simpa using h d hmem

end Search

end Pcode.Shortcut
