import Pcode.Proofs.Registry.Consistency
import Pcode.Proofs.Registry.Tagged

/-!
# Spaces as listed

Tags of spaces are taken in order, each in view of those before it. A registry that holds the spaces
of some tags takes one more exactly when this tag may follow them, and then holds the space that it
describes as the last one.
-/
namespace Pcode.Registry

/-! ## Spaces of several tags -/

/-- The space of constants as it is kept. -/
def constants : Space := (Shortcut.assign [] (.ofConstants "const" 0)).1

/-- The spaces of tags in order, behind that of constants, each as described and with a shortcut. -/
inductive Filled (order : ByteOrder) : List Xml.Element → List Space → Prop
  | start : Filled order [] [constants]
  | snoc {es : List Xml.Element} {ss : List Space} {e : Xml.Element} {s t : Space} :
      Filled order es ss → Makes order ss e s → s.Given t → Filled order (es ++ [e]) (ss ++ [t])

/-- What can be seen of a space in its tag. -/
structure Tells (e : Xml.Element) (s : Space) : Prop where
  name : e.text "name" = .ok s.name
  wordSize : e.wordD "wordsize" 1 = .ok s.info.wordSize
  temporary : s.purpose = .temporary ↔ e.name = "space_unique"
  form : s.isConstant = false

theorem Makes.tells {order : ByteOrder} {ss : List Space} {e : Xml.Element} {s t : Space}
    (h : Makes order ss e s) (hgiven : s.Given t) : Tells e t := by
  have hpurpose := h.purpose
  refine ⟨?_, ?_, ?_, ?_⟩
  · rw [hgiven.name]
    exact h.name
  · rw [hgiven.wordSize]
    exact h.wordSize
  · rw [hgiven.purpose, hpurpose]
    split
    next hunique => simp [hunique]
    next hunique => split <;> simp [hunique]
  · rw [hgiven.isConstant]
    cases h <;> rfl

namespace Filled
variable {order : ByteOrder} {es : List Xml.Element} {ss : List Space}

theorem length (h : Filled order es ss) : ss.length = es.length + 1 := by
  induction h with
  | start => rfl
  | snoc _ _ _ ih => simp [ih]

/-- A space with a property that can be seen in its tag is that of constants or has such a tag. -/
theorem exists_mem_iff (h : Filled order es ss) {P : Space → Prop} {Q : Xml.Element → Prop}
    (hPQ : ∀ {e s}, Tells e s → (P s ↔ Q e)) :
    (∃ s ∈ ss, P s) ↔ P constants ∨ ∃ e ∈ es, Q e := by
  induction h with
  | start => simp
  | @snoc es ss e s t _ hmakes hgiven ih =>
      have hlast : P t ↔ Q e := hPQ (hmakes.tells hgiven)
      simp only [List.mem_append, List.mem_singleton, or_and_right, exists_or, exists_eq_left]
      rw [ih, hlast, or_assoc]

end Filled

/-! ## Which tags may follow -/

/-- A tag of a space may follow the tags before it. -/
structure Admitted (before : List Xml.Element) (e : Xml.Element) : Prop where
  tag : e.name = "space" ∨ e.name = "space_other" ∨ e.name = "space_unique" ∨
    e.name = "space_base"
  legible : SpaceInfo.Legible e
  /-- Indices count the tags, from one on. -/
  index : ∃ index, e.word "index" = .ok index ∧ index.toNat = before.length + 1
  /-- The name is not that of constants, nor one before it. -/
  name : e.text "name" ≠ .ok "const" ∧ ∀ b ∈ before, b.text "name" ≠ e.text "name"
  temporaries : e.name = "space_unique" → e.text "name" = .ok "unique"
  /-- A space is contained in that of constants or in one before it, with words of its size. -/
  container : e.name = "space_base" →
    (e.text "contain" = .ok "const" ∧ e.wordD "wordsize" 1 = .ok 1) ∨
      ∃ b ∈ before, e.text "contain" = b.text "name" ∧
        e.wordD "wordsize" 1 = b.wordD "wordsize" 1

/-- A space fits behind others when its index is the next, its name is new, and it is the one
reserved for its purpose: roles go with names. -/
theorem Tabled.fits_iff {r : Registry} (hr : Tabled r) {s : Space} :
    r.Fits s ↔ s.info.index.toNat = r.size ∧ s.purpose ≠ .constant ∧
      (∀ name, s.purpose.reservedName? = some name → s.name = name) ∧
      ∀ t ∈ r.spaces, t.name ≠ s.name := by
  constructor
  · intro h
    exact ⟨h.index, h.purpose, h.reserved, fun t ht => hr.name_ne_of_fits h ht⟩
  · intro h
    obtain ⟨hindex, hpurpose, hreserved, hname⟩ := h
    refine ⟨hindex, hpurpose, hreserved, ?_, ?_⟩
    · intro role hrole
      refine hr.roles.lookup_eq_none_iff.mpr fun t ht htaken => hname t ht ?_
      rw [Role.ofInfo?_eq_some_iff] at hrole htaken
      rw [hr.name_of_role ht htaken, hrole.name hreserved]
    · refine hr.names.lookup_eq_none_iff.mpr fun t ht htaken => hname t ht ?_
      exact Option.some.inj htaken

/-- The registry holds the spaces of the tags, and no default space is chosen. -/
structure Listed (order : ByteOrder) (es : List Xml.Element) (r : Registry) : Prop where
  filled : Filled order es r.spaces
  numbered : Numbered r
  tabled : Tabled r
  undecided : r.defaultId = none

theorem listed_start (order : ByteOrder) : Listed order [] start :=
  ⟨.start, numbered_start, tabled_start, rfl⟩

namespace Listed
variable {order : ByteOrder} {es : List Xml.Element} {r : Registry}

theorem push (h : Listed order es r) {e : Xml.Element} {s : Space}
    (hmakes : Makes order r.spaces e s) (hfits : r.Fits s) : Listed order (es ++ [e]) (r.push s) where
  filled := .snoc h.filled hmakes (Shortcut.given_assign r.shortcuts s)
  numbered := (Step.spaces (.insert hfits)).numbered h.numbered
  tabled := h.tabled.push hfits
  undecided := h.undecided

/-- The registry has room for the space that a tag describes exactly when the tag may follow. -/
theorem exists_fits_iff (h : Listed order es r) {e : Xml.Element} :
    (∃ s, Makes order r.spaces e s ∧ r.Fits s) ↔ Admitted es e := by
  have hsize : r.size = es.length + 1 := h.filled.length
  -- names and word sizes of the spaces that are there can be seen in their tags
  have hcontainer : (∃ c ∈ r.spaces, e.text "contain" = .ok c.name ∧
      e.wordD "wordsize" 1 = .ok c.info.wordSize) ↔
        (e.text "contain" = .ok "const" ∧ e.wordD "wordsize" 1 = .ok 1) ∨
          ∃ b ∈ es, e.text "contain" = b.text "name" ∧
            e.wordD "wordsize" 1 = b.wordD "wordsize" 1 := by
    refine h.filled.exists_mem_iff fun htells => ?_
    rw [htells.name, htells.wordSize]
  have hnames : ∀ {s : Space}, e.text "name" = .ok s.name →
      ((∃ t ∈ r.spaces, t.name = s.name) ↔
        e.text "name" = .ok "const" ∨ ∃ b ∈ es, b.text "name" = e.text "name") := by
    intro s hs
    rw [hs]
    refine (h.filled.exists_mem_iff fun htells => ?_).trans (or_congr_left ?_)
    · rw [htells.name, Except.ok.injEq]
    · change "const" = s.name ↔ _
      rw [Except.ok.injEq, eq_comm]
  constructor
  · intro hfits
    obtain ⟨s, hmakes, hfits⟩ := hfits
    obtain ⟨htag, hlegible, hbased⟩ := exists_makes_iff.mp ⟨s, hmakes⟩
    obtain ⟨hindex, -, hreserved, hname⟩ := h.tabled.fits_iff.mp hfits
    have hnew := mt (hnames hmakes.name).mpr (by simpa using hname)
    rw [not_or] at hnew
    refine ⟨htag, hlegible, ⟨_, hmakes.index, hindex.trans hsize⟩, ⟨hnew.1, ?_⟩, ?_, ?_⟩
    · simpa using hnew.2
    · intro hunique
      rw [hmakes.name, hmakes.reserved_iff.mp hreserved hunique]
    · exact fun hbase => hcontainer.mp (hbased hbase)
  · intro hadmitted
    obtain ⟨s, hmakes⟩ := exists_makes_iff.mpr ⟨hadmitted.tag, hadmitted.legible,
      fun hbase => hcontainer.mpr (hadmitted.container hbase)⟩
    obtain ⟨index, hindex, hnext⟩ := hadmitted.index
    obtain rfl : s.info.index = index := Except.ok.inj (hmakes.index.symm.trans hindex)
    refine ⟨s, hmakes, h.tabled.fits_iff.mpr
      ⟨hnext.trans hsize.symm, hmakes.purpose_ne, hmakes.reserved_iff.mpr ?_, ?_⟩⟩
    · intro hunique
      exact Except.ok.inj (hmakes.name.symm.trans (hadmitted.temporaries hunique))
    · intro t ht hsame
      rcases (hnames hmakes.name).mp ⟨t, ht, hsame⟩ with hconst | ⟨b, hb, hbefore⟩
      · exact hadmitted.name.1 hconst
      · exact hadmitted.name.2 b hb hbefore

end Listed

/-! ## Insertion in order -/

theorem exec_insert_ok {s : Space} {r t : Registry} {id : SpaceId} :
    (insert s).exec r = (.ok id, t) ↔ r.Fits s ∧ s.id = id ∧ r.push s = t := by
  rw [exec_insert, ← checkInsert_eq_ok]
  cases r.checkInsert s <;> simp

/-- A tag is inserted when its space fits. -/
theorem exec_insertElement_ok {e : Xml.Element} {order : ByteOrder} {r t : Registry}
    {id : SpaceId} :
    (insertElement e order).exec r = (.ok id, t) ↔
      ∃ s, r.readSpace e order = .ok s ∧ r.Fits s ∧ s.id = id ∧ r.push s = t := by
  unfold insertElement
  rw [Action.exec_get_bind, Action.exec_liftM_bind_ok]
  simp only [exec_insert_ok]

/-- The tags may follow those before them, each in its turn. -/
def AllAdmitted (before es : List Xml.Element) : Prop :=
  ∀ k e, es[k]? = some e → Admitted (before ++ es.take k) e

theorem allAdmitted_cons {before es : List Xml.Element} {e : Xml.Element} :
    AllAdmitted before (e :: es) ↔ Admitted before e ∧ AllAdmitted (before ++ [e]) es := by
  constructor
  · intro h
    refine ⟨?_, ?_⟩
    · simpa using h 0 e rfl
    · intro k e' he'
      simpa using h (k + 1) e' he'
  · intro h k e' he'
    cases k with
    | zero =>
        cases he'
        simpa using h.1
    | succ k => simpa using h.2 k e' he'

namespace Listed
variable {order : ByteOrder} {es : List Xml.Element} {r : Registry}

theorem readSpace_eq_ok (h : Listed order es r) (hsize : es.length + 1 < 2 ^ 32)
    {e : Xml.Element} {s : Space} :
    r.readSpace e order = .ok s ↔ Makes order r.spaces e s := by
  have hlength : r.size = es.length + 1 := h.filled.length
  exact Registry.readSpace_eq_ok (h.tabled.named?_eq_some_iff h.numbered (hlength ▸ hsize))

/-- Tags are all inserted exactly when they may follow in order, and their spaces are then those
that follow. -/
theorem exec_insertElements_ok (h : Listed order es r) (es' : List Xml.Element)
    (hsize : es.length + es'.length < 2 ^ 32) :
    ((∃ t, (insertElements order es').exec r = (.ok (), t)) ↔ AllAdmitted es es') ∧
      ∀ t, (insertElements order es').exec r = (.ok (), t) → Listed order (es ++ es') t := by
  induction es' generalizing es r with
  | nil =>
      refine ⟨iff_of_true ⟨r, rfl⟩ ?_, ?_⟩
      · intro k e he
        cases he
      intro t ht
      cases ht
      rw [List.append_nil]
      exact h
  | cons e es' ih =>
      rw [List.length_cons] at hsize
      have hread : ∀ {s}, r.readSpace e order = .ok s ↔ Makes order r.spaces e s :=
        h.readSpace_eq_ok (by omega)
      have hrest : ∀ {s}, Makes order r.spaces e s → r.Fits s →
          ((∃ t, (insertElements order es').exec (r.push s) = (.ok (), t)) ↔
            AllAdmitted (es ++ [e]) es') ∧
          ∀ t, (insertElements order es').exec (r.push s) = (.ok (), t) →
            Listed order (es ++ [e] ++ es') t := by
        intro s hmakes hfits
        refine ih (h.push hmakes hfits) ?_
        rw [List.length_append, List.length_singleton]
        omega
      have hstep : ∀ t, (insertElements order (e :: es')).exec r = (.ok (), t) ↔
          ∃ s, (Makes order r.spaces e s ∧ r.Fits s) ∧
            (insertElements order es').exec (r.push s) = (.ok (), t) := by
        intro t
        rw [insertElements, Action.exec_bind_ok]
        constructor
        · intro ht
          obtain ⟨_, _, hinsert, ht⟩ := ht
          obtain ⟨s, hs, hfits, rfl, rfl⟩ := exec_insertElement_ok.mp hinsert
          exact ⟨s, ⟨hread.mp hs, hfits⟩, ht⟩
        · intro ht
          obtain ⟨s, ⟨hmakes, hfits⟩, ht⟩ := ht
          exact ⟨s.id, r.push s,
            exec_insertElement_ok.mpr ⟨s, hread.mpr hmakes, hfits, rfl, rfl⟩, ht⟩
      simp only [hstep]
      refine ⟨?_, ?_⟩
      · rw [allAdmitted_cons, ← h.exists_fits_iff]
        constructor
        · intro hok
          obtain ⟨t, s, ⟨hmakes, hfits⟩, ht⟩ := hok
          exact ⟨⟨s, hmakes, hfits⟩, (hrest hmakes hfits).1.mp ⟨t, ht⟩⟩
        · intro hall
          obtain ⟨⟨s, hmakes, hfits⟩, hothers⟩ := hall
          obtain ⟨t, ht⟩ := (hrest hmakes hfits).1.mpr hothers
          exact ⟨t, s, ⟨hmakes, hfits⟩, ht⟩
      · intro t ht
        obtain ⟨s, ⟨hmakes, hfits⟩, ht⟩ := ht
        have hlisted := (hrest hmakes hfits).2 t ht
        rw [List.append_assoc, List.singleton_append] at hlisted
        exact hlisted

end Listed

end Pcode.Registry
