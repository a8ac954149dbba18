import Pcode.Proofs.Processor.Registers
import Pcode.Proofs.Registry.Narrowing
import Pcode.Proofs.Word

/-!
# The stages of a configuration

A model takes its configuration in stages, each over tags of its own and over what the stages before
it have left. For every stage it is told when it succeeds and what it then makes of the model, and
from this what becomes of a model that has taken all of them.
-/
namespace Pcode
open Config (Documents)

namespace Registry
open Relation (ReflTransGen)

/-- The stack is given the base register that a tag names, where there is such a tag. -/
inductive Anchors (f : RegisterFile) (r : Registry) : Option Xml.Element → Registry → Prop
  | absent : Anchors f r none r
  | present {e : Xml.Element} {s : Processor.StackPointer} {stack : SpaceId} {register : Varnode}
      {t : Registry} : Processor.StackPointer.ofElement e = .ok s →
      f.location? s.register = some register → r.idInRole? .stack = some stack →
      (anchor stack register s.size s.growsDown).exec r = (.ok (), t) → Anchors f r (some e) t

theorem Anchors.steps {f : RegisterFile} {r t : Registry} {e : Option Xml.Element}
    (h : Anchors f r e t) : ReflTransGen SpaceStep r t := by
  cases h with
  | absent => exact .refl
  | @present _ s stack register _ _ _ _ ht =>
      have hmoves := moves_anchor stack register s.size s.growsDown r
      rw [ht] at hmoves
      exact hmoves

end Registry

namespace Processor
open Registry (Narrowed Declares Registered Anchors)

section Parts
variable {ε α : Type} {p q : Processor} {a : α}

theorem exec_onRegistry_ok {x : Action Registry ε α} :
    (onRegistry x).exec p = (.ok a, q) ↔
      ∃ t, x.exec p.registry = (.ok a, t) ∧ { p with registry := t } = q := by
  unfold onRegistry
  rw [Action.exec_focus]
  rcases x.exec p.registry with ⟨_ | b, t⟩ <;> simp [and_assoc]

theorem exec_onRegisters_ok {x : Action RegisterFile ε α} :
    (onRegisters x).exec p = (.ok a, q) ↔
      ∃ f, x.exec p.registers = (.ok a, f) ∧ { p with registers := f } = q := by
  unfold onRegisters
  rw [Action.exec_focus]
  rcases x.exec p.registers with ⟨_ | b, f⟩ <;> simp [and_assoc]

end Parts

theorem keepTemporaries_eq (p : Processor) (offset : UInt64) :
    p.keepTemporaries offset = { p with firstTemporary := max p.firstTemporary offset } := by
  have hmax : max p.firstTemporary offset =
      if p.firstTemporary < offset then offset else p.firstTemporary := by
    apply UInt64.toNat_inj.mp
    rw [Word.toNat_max]
    simp only [UInt64.lt_iff_toNat_lt]
    split <;> omega
  rw [hmax]
  unfold keepTemporaries
  split <;> rfl

/-- The layouts that a model has which is given these ones. -/
def usualOr (layouts : List FloatLayout) : List FloatLayout :=
  if layouts.isEmpty then [.single, .double] else layouts

theorem addUsualFloats_eq (p : Processor) :
    p.addUsualFloats = { p with floats := usualOr p.floats } := by
  unfold addUsualFloats usualOr
  split <;> rfl

theorem requireTag_eq_ok {d : Documents} {name : String} {e : Xml.Element} :
    requireTag d name = .ok e ↔ d.tag? name = some e := by
  unfold requireTag
  cases d.tag? name <;> simp

/-! ## One stage -/

section Stages
variable {d : Documents} {p q : Processor}

theorem exec_fillProperties_ok :
    (fillProperties d).exec p = (.ok (), q) ↔
      ∃ root big alignment temporary, d.tag? "sleigh" = some root ∧
        root.bool "bigendian" = .ok big ∧ root.wordD "align" 1 = .ok alignment ∧
        root.wordD "uniqbase" 0 = .ok temporary ∧
        { p with
          byteOrder := .ofBig big
          alignment := max alignment 1
          firstTemporary := max p.firstTemporary temporary } = q := by
  unfold fillProperties
  simp only [Action.exec_liftM_bind_ok, Action.exec_modify, requireTag_eq_ok, keepTemporaries_eq,
    Prod.mk.injEq, true_and, exists_and_left]

theorem exec_fillFloats_ok :
    (fillFloats d).exec p = (.ok (), q) ↔
      ∃ layouts, (d.tags "floatformat").map FloatLayout.ofElement = layouts.map .ok ∧
        { p with floats := usualOr (p.floats ++ layouts) } = q := by
  unfold fillFloats
  simp only [Action.exec_liftM_bind_ok, Action.exec_modify, addUsualFloats_eq, mapM_eq_ok,
    Prod.mk.injEq, true_and]

theorem exec_fillSpaces_ok :
    (fillSpaces d).exec p = (.ok (), q) ↔
      ∃ e t, d.tag? "spaces" = some e ∧
        (Registry.fill e p.byteOrder).exec p.registry = (.ok (), t) ∧
        { p with registry := t } = q := by
  unfold fillSpaces
  rw [Action.exec_liftM_bind_ok]
  simp only [requireTag_eq_ok]
  constructor
  · intro h
    obtain ⟨e, he, h⟩ := h
    rw [Action.exec_get_bind] at h
    obtain ⟨t, ht, rfl⟩ := exec_onRegistry_ok.mp h
    exact ⟨e, t, he, ht, rfl⟩
  · intro h
    obtain ⟨e, t, he, ht, rfl⟩ := h
    refine ⟨e, he, ?_⟩
    rw [Action.exec_get_bind]
    exact exec_onRegistry_ok.mpr ⟨t, ht, rfl⟩

theorem exec_narrowSpaces_ok {es : List Xml.Element} :
    (narrowSpaces es).exec p = (.ok (), q) ↔
      ∃ t, Narrowed es p.registry t ∧ { p with registry := t } = q := by
  induction es generalizing p with
  | nil =>
      constructor
      · intro h
        cases h
        exact ⟨_, .nil _, rfl⟩
      · intro h
        obtain ⟨t, ht, rfl⟩ := h
        cases ht
        rfl
  | cons e es ih =>
      rw [narrowSpaces, Action.exec_liftM_bind_ok]
      simp only [Action.exec_bind_ok, exec_onRegistry_ok, Registry.exec_narrow_ok, ih]
      constructor
      · intro h
        obtain ⟨wish, hwish, _, _, ⟨_, ⟨id, hid, rfl⟩, rfl⟩, t, ht, rfl⟩ := h
        exact ⟨t, .cons hwish hid ht, rfl⟩
      · intro h
        obtain ⟨t, ht, rfl⟩ := h
        cases ht with
        | cons hwish hid ht => exact ⟨_, hwish, (), _, ⟨_, ⟨_, hid, rfl⟩, rfl⟩, t, ht, rfl⟩

theorem exec_fillRegister_ok {e : Xml.Element} {u : Unit} :
    (fillRegister e).exec p = (.ok u, q) ↔
      ∃ name location f, Declares p.registry e name location ∧
        (RegisterFile.define name location).exec p.registers = (.ok (), f) ∧
        { p with registers := f } = q := by
  unfold fillRegister
  simp only [Action.exec_liftM_bind_ok, Action.exec_get_bind]
  constructor
  · intro h
    obtain ⟨⟨⟩, htag, name, hname, spaceName, hspace, h⟩ := h
    rcases hs : p.registry.named? spaceName with _ | s
    · rw [hs] at h
      cases h
    · rw [hs] at h
      simp only [Action.exec_liftM_bind_ok, exec_onRegisters_ok] at h
      obtain ⟨offset, hoffset, size, hsize, f, hf, rfl⟩ := h
      exact ⟨name, _, f, ⟨Xml.Element.requireName_eq_ok.mp htag, hname,
        ⟨spaceName, s, hspace, hs, rfl⟩, hoffset, hsize⟩, hf, rfl⟩
  · intro h
    obtain ⟨name, ⟨id, offset, size⟩, f, hdeclares, hf, rfl⟩ := h
    obtain ⟨spaceName, s, hspace, hs, rfl⟩ := hdeclares.space
    refine ⟨(), Xml.Element.requireName_eq_ok.mpr hdeclares.tag, name, hdeclares.name, spaceName,
      hspace, ?_⟩
    rw [hs]
    simp only [Action.exec_liftM_bind_ok, exec_onRegisters_ok]
    exact ⟨offset, hdeclares.offset, size, hdeclares.size, f, hf, rfl⟩

theorem exec_fillRegisters_ok {es : List Xml.Element} :
    (fillRegisters es).exec p = (.ok (), q) ↔
      ∃ f, Registered p.registry es p.registers f ∧ { p with registers := f } = q := by
  induction es generalizing p with
  | nil =>
      constructor
      · intro h
        cases h
        exact ⟨_, .nil _, rfl⟩
      · intro h
        obtain ⟨f, hf, rfl⟩ := h
        cases hf
        rfl
  | cons e es ih =>
      rw [fillRegisters, Action.exec_bind_ok]
      simp only [exec_fillRegister_ok, ih]
      constructor
      · intro h
        obtain ⟨_, _, ⟨name, location, g, hdeclares, hg, rfl⟩, f, hf, rfl⟩ := h
        exact ⟨f, .cons hdeclares hg hf, rfl⟩
      · intro h
        obtain ⟨f, hf, rfl⟩ := h
        cases hf with
        | cons hdeclares hg hf => exact ⟨(), _, ⟨_, _, _, hdeclares, hg, rfl⟩, f, hf, rfl⟩

theorem exec_fillUserOps_cons_ok {e : Xml.Element} {es : List Xml.Element} :
    (fillUserOps (e :: es)).exec p = (.ok (), q) ↔
      ∃ name index, e.text "name" = .ok name ∧ e.word "index" = .ok index ∧
        index.toNat = p.userOps.length ∧
        (fillUserOps es).exec { p with userOps := p.userOps ++ [name] } = (.ok (), q) := by
  rw [fillUserOps]
  simp only [Action.exec_liftM_bind_ok, exists_and_left]
  refine exists_congr fun name => and_congr_right fun _ => exists_congr fun index =>
    and_congr_right fun _ => ?_
  rw [Action.exec_get_bind]
  by_cases hcount : index.toNat = p.userOps.length
  · simp only [hcount, ne_eq, not_true_eq_false, if_false, true_and]
    rw [Action.exec_bind_of_ok (Action.exec_modify _ _)]
  · simp only [hcount, ne_eq, not_false_eq_true, if_true, false_and, iff_false]
    intro h
    cases h

theorem exec_fillUserOps_ok {es : List Xml.Element} :
    (fillUserOps es).exec p = (.ok (), q) ↔
      ∃ names, (es.map fun e => e.text "name") = names.map .ok ∧
        (∀ k e, es[k]? = some e →
          ∃ index, e.word "index" = .ok index ∧ index.toNat = p.userOps.length + k) ∧
        { p with userOps := p.userOps ++ names } = q := by
  induction es generalizing p with
  | nil =>
      constructor
      · intro h
        cases h
        exact ⟨[], rfl, by simp, by rw [List.append_nil]⟩
      · intro h
        obtain ⟨names, hnames, -, rfl⟩ := h
        obtain rfl := List.map_eq_nil_iff.mp hnames.symm
        rw [List.append_nil]
        rfl
  | cons e es ih =>
      rw [exec_fillUserOps_cons_ok]
      simp only [ih, List.length_append, List.length_singleton, List.append_assoc,
        List.singleton_append, List.map_cons]
      constructor
      · intro h
        obtain ⟨name, index, hname, hindex, hcount, names, hnames, hindices, rfl⟩ := h
        refine ⟨name :: names, by rw [hname, hnames, List.map_cons], ?_, rfl⟩
        intro k e' he'
        cases k with
        | zero =>
            cases he'
            exact ⟨index, hindex, hcount⟩
        | succ k =>
            obtain ⟨index', hindex', hk⟩ := hindices k e' he'
            exact ⟨index', hindex', by omega⟩
      · intro h
        obtain ⟨_ | ⟨name, names⟩, hnames, hindices, rfl⟩ := h
        · cases hnames
        · obtain ⟨hname, hnames⟩ := List.cons.inj hnames
          obtain ⟨index, hindex, hcount⟩ := hindices 0 e rfl
          refine ⟨name, index, hname, hindex, hcount, names, hnames, ?_, rfl⟩
          intro k e' he'
          obtain ⟨index', hindex', hk⟩ := hindices (k + 1) e' he'
          exact ⟨index', hindex', by omega⟩

theorem findStackPointer_eq_ok {s : StackPointer} {stack : SpaceId} {register : Varnode} :
    findStackPointer p s = .ok (stack, register) ↔
      p.registers.location? s.register = some register ∧
        p.registry.idInRole? .stack = some stack := by
  unfold findStackPointer
  cases p.registers.location? s.register <;> cases p.registry.idInRole? .stack <;>
    simp [and_comm]

theorem exec_fillStackPointer_ok {e : Xml.Element} :
    (fillStackPointer e).exec p = (.ok (), q) ↔
      ∃ t, Anchors p.registers p.registry (some e) t ∧ { p with registry := t } = q := by
  unfold fillStackPointer
  rw [Action.exec_liftM_bind_ok]
  constructor
  · intro h
    obtain ⟨s, hs, h⟩ := h
    rw [Action.exec_get_bind] at h
    obtain ⟨⟨stack, register⟩, hfound, h⟩ := Action.exec_liftM_bind_ok.mp h
    obtain ⟨hregister, hstack⟩ := findStackPointer_eq_ok.mp (Failure.ofExcept_eq_ok.mp hfound)
    obtain ⟨t, ht, rfl⟩ := exec_onRegistry_ok.mp h
    exact ⟨t, .present (Failure.ofExcept_eq_ok.mp hs) hregister hstack ht, rfl⟩
  · intro h
    obtain ⟨t, ht, rfl⟩ := h
    cases ht with
    | @present _ s stack register _ hs hregister hstack ht =>
        refine ⟨s, Failure.ofExcept_eq_ok.mpr hs, ?_⟩
        rw [Action.exec_get_bind]
        exact Action.exec_liftM_bind_ok.mpr ⟨(stack, register),
          Failure.ofExcept_eq_ok.mpr (findStackPointer_eq_ok.mpr ⟨hregister, hstack⟩),
          exec_onRegistry_ok.mpr ⟨t, ht, rfl⟩⟩

end Stages

/-! ## All stages -/

/-- A model takes what the documents say. -/
structure Takes (d : Documents) (p q : Processor) : Prop where
  root : ∃ root big alignment temporary, d.tag? "sleigh" = some root ∧
    root.bool "bigendian" = .ok big ∧ root.wordD "align" 1 = .ok alignment ∧
    root.wordD "uniqbase" 0 = .ok temporary ∧ q.byteOrder = .ofBig big ∧
    q.alignment = max alignment 1 ∧ q.firstTemporary = max p.firstTemporary temporary
  floats : ∃ layouts, (d.tags "floatformat").map FloatLayout.ofElement = layouts.map .ok ∧
    q.floats = usualOr (p.floats ++ layouts)
  /-- The spaces are filled in and narrowed, the registers are placed in them, and one of these
  becomes the base of the stack. -/
  spaces : ∃ e filled narrowed, d.tag? "spaces" = some e ∧
    (Registry.fill e q.byteOrder).exec p.registry = (.ok (), filled) ∧
    Narrowed (d.tags "truncate_space") filled narrowed ∧
    Registered narrowed (registerTags d) p.registers q.registers ∧
    Anchors q.registers narrowed (d.tag? "stackpointer") q.registry
  userOps : ∃ names, ((d.tags "userop").map fun e => e.text "name") = names.map .ok ∧
    (∀ k e, (d.tags "userop")[k]? = some e →
      ∃ index, e.word "index" = .ok index ∧ index.toNat = p.userOps.length + k) ∧
    q.userOps = p.userOps ++ names
  isFrozen : q.isFrozen = p.isFrozen

theorem takes_of_fillAll {d : Documents} {p q : Processor} (h : (fillAll d).exec p = (.ok (), q)) :
    Takes d p q := by
  unfold fillAll fillParts Action.refusing at h
  obtain ⟨_, p₆, h, hstack⟩ := Action.exec_bind_ok.mp h
  rw [Action.exec_mapCause_ok] at h
  obtain ⟨_, p₁, h₁, h⟩ := Action.exec_bind_ok.mp h
  obtain ⟨_, p₂, h₂, h⟩ := Action.exec_bind_ok.mp h
  obtain ⟨_, p₃, h₃, h⟩ := Action.exec_bind_ok.mp h
  obtain ⟨_, p₄, h₄, h⟩ := Action.exec_bind_ok.mp h
  obtain ⟨_, p₅, h₅, h₆⟩ := Action.exec_bind_ok.mp h
  obtain ⟨root, big, alignment, temporary, hroot, hbig, halignment, htemporary, rfl⟩ :=
    exec_fillProperties_ok.mp h₁
  obtain ⟨layouts, hlayouts, rfl⟩ := exec_fillFloats_ok.mp h₂
  obtain ⟨e, filled, he, hfilled, rfl⟩ := exec_fillSpaces_ok.mp h₃
  obtain ⟨narrowed, hnarrowed, rfl⟩ := exec_narrowSpaces_ok.mp h₄
  obtain ⟨registers, hregisters, rfl⟩ := exec_fillRegisters_ok.mp h₅
  obtain ⟨names, hnames, hindices, rfl⟩ := exec_fillUserOps_ok.mp h₆
  have hparts : ∃ last, Anchors registers narrowed (d.tag? "stackpointer") last ∧
      { p with
        registry := last
        registers
        userOps := p.userOps ++ names
        floats := usualOr (p.floats ++ layouts)
        byteOrder := .ofBig big
        alignment := max alignment 1
        firstTemporary := max p.firstTemporary temporary } = q := by
    rcases htag : d.tag? "stackpointer" with _ | e
    · rw [htag] at hstack
      cases hstack
      exact ⟨_, .absent, rfl⟩
    · rw [htag] at hstack
      exact exec_fillStackPointer_ok.mp hstack
  obtain ⟨last, hlast, rfl⟩ := hparts
  exact ⟨⟨root, big, alignment, temporary, hroot, hbig, halignment, htemporary, rfl, rfl, rfl⟩,
    ⟨layouts, hlayouts, rfl⟩, ⟨e, filled, narrowed, he, hfilled, hnarrowed, hregisters, hlast⟩,
    ⟨names, hnames, hindices, rfl⟩, rfl⟩

end Processor

end Pcode
