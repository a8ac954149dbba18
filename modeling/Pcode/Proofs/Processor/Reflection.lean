import Pcode.Proofs.Processor.Filling
import Pcode.Proofs.Registry.Anchoring
import Pcode.Proofs.Registry.Layout

/-!
# Configured models

A model that takes its configuration is what the documents say: its spaces, registers and user
operations, its float layouts, its byte order and alignment, and the base of its stack. Each stage
of the configuration builds on those before it and leaves what they established.
-/
namespace Pcode
open Config (Documents)

namespace Registry
open Relation (ReflTransGen)

/-! ## The spaces that are filled in -/

theorem size_insertElements {order : ByteOrder} {es : List Xml.Element} {r t : Registry}
    (h : (insertElements order es).exec r = (.ok (), t)) : t.size = r.size + es.length := by
  induction es generalizing r with
  | nil =>
      cases h
      rfl
  | cons e es ih =>
      obtain ⟨_, m, hfirst, h⟩ := Action.exec_bind_ok.mp h
      obtain ⟨s, -, -, -, rfl⟩ := exec_insertElement_ok.mp hfirst
      rw [ih h, size_push, List.length_cons]
      omega

theorem size_fill {e : Xml.Element} {order : ByteOrder} {r t : Registry}
    (h : (fill e order).exec r = (.ok (), t)) : r.size + e.children.length ≤ t.size := by
  unfold fill at h
  obtain ⟨_, -, h⟩ := Action.exec_liftM_bind_ok.mp h
  obtain ⟨name, -, h⟩ := Action.exec_liftM_bind_ok.mp h
  obtain ⟨_, m, hm, h⟩ := Action.exec_bind_ok.mp h
  have hrest := ((moves_chooseDefaultNamed name).bind fun _ => moves_insertUsual order) m
  rw [h] at hrest
  rw [← size_insertElements hm]
  exact (persists_of_steps (steps_of_spaceSteps hrest)).size_le

theorem Filled.base? {order : ByteOrder} {es : List Xml.Element} {ss : List Space}
    (h : Filled order es ss) : ∀ s ∈ ss, s.base? = none := by
  induction h with
  | start =>
      intro s hs
      obtain rfl := List.mem_singleton.mp hs
      rfl
  | snoc _ hmakes hgiven ih =>
      intro s hs
      rcases List.mem_append.mp hs with hold | hlast
      · exact ih s hold
      · obtain rfl := List.mem_singleton.mp hlast
        obtain ⟨c, rfl, -⟩ := hgiven
        rw [Space.base?_modifyInfo]
        cases hmakes <;> rfl

theorem base?_usual {order : ByteOrder} {configured : Bool} :
    ∀ make ∈ usual order configured, ∀ i, (make i).base? = none := by
  intro make hmake i
  cases configured <;>
  · simp only [usual, if_true, Bool.false_eq_true, if_false, List.nil_append, List.cons_append,
      List.mem_cons, List.not_mem_nil, or_false] at hmake
    rcases hmake with rfl | rfl | rfl | rfl <;> rfl

theorem LaidOut.unbased {e : Xml.Element} {order : ByteOrder} {t : Registry}
    (h : LaidOut e order t) : Unbased t := by
  obtain ⟨configured, added, hspaces, hconfigured, hadded⟩ := h.spaces
  intro i s hs
  have hmem : s ∈ configured ++ added := hspaces ▸ List.mem_of_getElem? hs
  rcases List.mem_append.mp hmem with hold | hnew
  · exact hconfigured.base? s hold
  · obtain ⟨s', hs', c, rfl, -⟩ := exists_mem_of_forall₂ hadded hnew
    obtain ⟨make, hmake, i, rfl⟩ := exists_of_mem_placed hs'
    rw [Space.base?_modifyInfo]
    exact base?_usual make hmake i

theorem orderly_start : Orderly start := ⟨numbered_start, tabled_start, by decide⟩

theorem orderly_fill {e : Xml.Element} {order : ByteOrder} {t : Registry}
    (h : (fill e order).exec start = (.ok (), t)) (hfew : t.size < 2 ^ 32) : Orderly t := by
  have hsteps := moves_fill e order start
  rw [h] at hsteps
  exact orderly_start.of_steps hsteps hfew

/-! ## What later stages leave -/

section Later
variable {e : Xml.Element} {order : ByteOrder} {r t : Registry}

theorem LaidOut.default_of_persists (h : LaidOut e order r) (hr : Orderly r)
    (hpersists : Persists r t) :
    ∃ s, e.text "defaultspace" = .ok s.name ∧ t.default? = some s := by
  obtain ⟨s, hs, hname, hdefault⟩ := h.default
  have hfound : r.default? = some s :=
    Option.bind_eq_some_iff.mpr ⟨s.id, hdefault, hr.numbered.find?_id hr.few hs⟩
  obtain ⟨s', hs', hkept⟩ := hpersists.found hpersists.default hfound
  exact ⟨s', hkept.name ▸ hname, hs'⟩

theorem LaidOut.roles_of_persists (h : LaidOut e order r) (hr : Orderly r)
    (hpersists : Persists r t) :
    ∀ role ∈ [Role.temporaries, .opReferences, .callSpecs, .joins],
      ∃ s, t.inRole? role = some s ∧ role.GoesTo s := by
  intro role hrole
  obtain ⟨s, hs, hgoes, hid⟩ := h.roles role hrole
  have hfound : r.inRole? role = some s :=
    Option.bind_eq_some_iff.mpr ⟨s.id, hid, hr.numbered.find?_id hr.few hs⟩
  obtain ⟨s', hs', hkept⟩ := hpersists.found (hpersists.roles role) hfound
  refine ⟨s', hs', ?_⟩
  rw [← Role.ofInfo?_eq_some_iff, hkept.role, Role.ofInfo?_eq_some_iff]
  exact hgoes

theorem Declares.persists {name : String} {location : Varnode} (h : r.Declares e name location)
    (hpersists : Persists r t) : t.Declares e name location := by
  obtain ⟨spaceName, s, hspace, hs, hid⟩ := h.space
  obtain ⟨s', hs', hkept⟩ := hpersists.found (hpersists.names spaceName) hs
  exact { h with space := ⟨spaceName, s', hspace, hs', hid.trans hkept.id.symm⟩ }

theorem Declares.located {name : String} {location : Varnode} (h : r.Declares e name location)
    (hr : Orderly r) : ∃ s, r.find? location.space = some s := by
  obtain ⟨spaceName, s, -, hs, hid⟩ := h.space
  exact ⟨s, hid ▸ hr.numbered.find?_id hr.few (hr.named?_eq_some_iff.mp hs).1⟩

/-- The registers are those that the tags declare, also beside a registry with more to it. -/
theorem Registered.location?_of_persists {es : List Xml.Element} {f : RegisterFile}
    (h : r.Registered es .empty f) (hpersists : Persists r t) :
    (∀ e ∈ es, ∃ name location, t.Declares e name location) ∧
      ∀ name location, f.location? name = some location ↔
        ∃ e ∈ es, t.Declares e name location := by
  have htagged : ∀ e ∈ es, ∃ name location, r.Declares e name location := h.declares
  refine ⟨?_, ?_⟩
  · intro e he
    obtain ⟨name, location, hdeclares⟩ := htagged e he
    exact ⟨name, location, hdeclares.persists hpersists⟩
  · intro name location
    rw [h.location?_iff]
    constructor
    · intro hor
      rcases hor with hempty | ⟨e, he, hdeclares⟩
      · cases hempty
      · exact ⟨e, he, hdeclares.persists hpersists⟩
    · intro hlater
      obtain ⟨e, he, hlater⟩ := hlater
      obtain ⟨name', location', hdeclares⟩ := htagged e he
      obtain ⟨rfl, rfl⟩ := (hdeclares.persists hpersists).unique hlater
      exact .inr ⟨e, he, hdeclares⟩

/-- Every location of a register lies in a space. -/
theorem Registered.located {es : List Xml.Element} {f : RegisterFile}
    (h : r.Registered es .empty f) (hpersists : Persists r t) (ht : Orderly t) (name : String)
    (location : Varnode)
    (hmem : (name, location) ∈ f.byName ∨ (location, name) ∈ f.byLocation) :
    ∃ s, t.find? location.space = some s := by
  have hindexed := h.indexed RegisterFile.indexed_empty
  have hfound : f.location? name = some location := by
    rcases hmem with hmem | hmem
    · exact hindexed.byName name location hmem
    · exact hindexed.byLocation location name hmem
  obtain ⟨e, -, hdeclares⟩ := ((h.location?_of_persists hpersists).2 name location).mp hfound
  exact hdeclares.located ht

/-- Giving a space its base register leaves the extents of all spaces alone. -/
theorem Anchors.extent {f : RegisterFile} {tag : Option Xml.Element} (h : Anchors f r tag t)
    {i : Nat} {s s' : Space} (hs : r.at? i = some s) (hs' : t.at? i = some s') :
    s'.info.pointerSize = s.info.pointerSize ∧ s'.info.highest = s.info.highest := by
  cases h with
  | absent =>
      cases hs.symm.trans hs'
      exact ⟨rfl, rfl⟩
  | present _ _ _ ht =>
      obtain ⟨_, b, b', _, hb, hanchored, rfl⟩ := exec_anchor_ok.mp ht
      exact extent_set hb hanchored hs hs'

end Later

end Registry

namespace Processor
open Registry (Orderly Narrowed Anchors Persists)

theorem StackPointer.ofElement_eq_ok {e : Xml.Element} {s : StackPointer} :
    ofElement e = .ok s ↔ e.text "register" = .ok s.register ∧ e.wordD "size" 0 = .ok s.size ∧
      s.growsDown = (e.textD "growth" "negative" != "positive") := by
  unfold ofElement
  simp only [bind_eq_ok]
  constructor
  · intro h
    obtain ⟨register, hregister, size, hsize, h⟩ := h
    cases h
    exact ⟨hregister, hsize, rfl⟩
  · intro h
    obtain ⟨hregister, hsize, hgrows⟩ := h
    exact ⟨_, hregister, _, hsize, by rw [← hgrows]; rfl⟩

/-- The stack has one base register: the one that the tag names, of which the bytes are used that
the tag asks for. -/
structure BasedOn (q : Processor) (e : Xml.Element) (b : BasedSpace) : Prop where
  named : q.registry.named? "stack" = some (.based b)
  role : q.registry.inRole? .stack = some (.based b)
  base : ∃ name register size registers used, e.text "register" = .ok name ∧
    q.registers.location? name = some register ∧ e.wordD "size" 0 = .ok size ∧
    q.registry.find? register.space = some registers ∧
    BasedSpace.LowPart registers.info.byteOrder register size used ∧
    b.wholeBases = [register] ∧ b.bases = [used]
  growsDown : b.growsDown = (e.textD "growth" "negative" != "positive")

/-- The model is what the documents say. -/
structure Reflects (d : Documents) (q : Processor) : Prop where
  root : ∃ root big alignment, d.tag? "sleigh" = some root ∧ root.bool "bigendian" = .ok big ∧
    q.byteOrder = .ofBig big ∧ root.wordD "align" 1 = .ok alignment ∧
    q.alignment = max alignment 1 ∧ root.wordD "uniqbase" 0 = .ok q.firstTemporary
  /-- The float layouts are those configured, in order, or the usual ones if there are none. -/
  floats : ∃ layouts, (d.tags "floatformat").map FloatLayout.ofElement = layouts.map .ok ∧
    q.floats = if layouts.isEmpty then [.single, .double] else layouts
  default : ∃ e s, d.tag? "spaces" = some e ∧ e.text "defaultspace" = .ok s.name ∧
    q.registry.default? = some s
  roles : ∀ role ∈ [Role.temporaries, .opReferences, .callSpecs, .joins],
    ∃ s, q.registry.inRole? role = some s ∧ role.GoesTo s
  /-- Every tag of a register declares one. -/
  declared : ∀ e ∈ registerTags d, ∃ name location, q.registry.Declares e name location
  /-- The names of registers have the locations that the tags declare for them, and there are no
  others. -/
  registers : ∀ name location, q.registers.location? name = some location ↔
    ∃ e ∈ registerTags d, q.registry.Declares e name location
  /-- Every location of a register lies in a space. -/
  located : ∀ name location,
    (name, location) ∈ q.registers.byName ∨ (location, name) ∈ q.registers.byLocation →
      ∃ s, q.registry.find? location.space = some s
  /-- The user operations are those of the tags, each at its number. -/
  userOps : ((d.tags "userop").map fun e => e.text "name") = q.userOps.map .ok ∧
    ∀ (k : Nat) e, (d.tags "userop")[k]? = some e →
      ∃ index, e.word "index" = .ok index ∧ index.toNat = k
  /-- Every space that a tag narrows is marked so, and has the size in the last tag that names it. -/
  narrowed : ∀ before e after, d.tags "truncate_space" = before ++ e :: after →
    ∃ name size s, e.text "space" = .ok name ∧ e.word "size" = .ok size ∧
      q.registry.named? name = some s ∧ s.info.isNarrowed = true ∧
      ((∀ e' ∈ after, e'.text "space" ≠ .ok name) →
        s.info.pointerSize = size ∧ s.info.highest = Word.highest size s.info.wordSize)
  stack : ∀ e, d.tag? "stackpointer" = some e → ∃ b, BasedOn q e b

section Stages
variable {d : Documents} {q : Processor} {r : Registry}

theorem narrowed_of_anchors {f : RegisterFile} {tag : Option Xml.Element} {filled t : Registry}
    (hfilled : Orderly filled) (h : Narrowed (d.tags "truncate_space") filled r)
    (hanchors : Anchors f r tag t) {before after : List Xml.Element} {e : Xml.Element}
    (hsplit : d.tags "truncate_space" = before ++ e :: after) :
    ∃ name size s, e.text "space" = .ok name ∧ e.word "size" = .ok size ∧
      t.named? name = some s ∧ s.info.isNarrowed = true ∧
      ((∀ e' ∈ after, e'.text "space" ≠ .ok name) →
        s.info.pointerSize = size ∧ s.info.highest = Word.highest size s.info.wordSize) := by
  rw [hsplit] at h
  obtain ⟨name, size, s, hname, hsize, hs, hmark, hlast⟩ := h.narrowed_at hfilled
  have hpersists := Registry.persists_of_steps (Registry.steps_of_spaceSteps hanchors.steps)
  obtain ⟨id, hid, hat⟩ := Option.bind_eq_some_iff.mp hs
  obtain ⟨s', hs', hkept⟩ := hpersists.spaces id.index s hat
  obtain ⟨hpointer, hhighest⟩ := hanchors.extent hat hs'
  refine ⟨name, size, s', hname, hsize, ?_, hkept.marks .truncated hmark, ?_⟩
  · exact Option.bind_eq_some_iff.mpr ⟨id, hpersists.names name id hid, hs'⟩
  · intro hafter
    rw [hpointer, hhighest, hkept.wordSize]
    exact hlast hafter

theorem basedOn_of_anchors {e : Xml.Element} (hr : Registry.Unbased r) (hq : Orderly q.registry)
    (h : Anchors q.registers r (some e) q.registry) : ∃ b, BasedOn q e b := by
  have hpersists := Registry.persists_of_steps (Registry.steps_of_spaceSteps h.steps)
  cases h with
  | @present _ s stack register _ hs hregister hstack ht =>
      obtain ⟨hname, hsize, hgrows⟩ := StackPointer.ofElement_eq_ok.mp hs
      obtain ⟨registers, b, b', hregisters, hb, hanchored, hlast⟩ := Registry.exec_anchor_ok.mp ht
      obtain ⟨used, hlow, hanchor, hgrown⟩ :=
        Registry.anchor_of_anchored hanchored (hr.anchor hb)
      have hfound : q.registry.find? stack = some (.based b') := by
        rw [← hlast]
        exact Registry.find?_set_self hb
      have hrole := hpersists.roles .stack stack hstack
      obtain ⟨hmem, hgoes⟩ := hq.goesTo_of_idInRole? hrole hfound
      obtain ⟨registers', hregisters', hkept⟩ := hpersists.spaces _ _ hregisters
      refine ⟨b', hq.named?_eq_some_iff.mpr ⟨hmem, hgoes.2⟩, ?_, ?_, hgrown.trans hgrows⟩
      · exact Option.bind_eq_some_iff.mpr ⟨stack, hrole, hfound⟩
      · refine ⟨s.register, register, s.size, registers', used, hname, hregister, hsize,
          hregisters', ?_, ?_, ?_⟩
        · rw [hkept.byteOrder]
          exact hlow
        · unfold BasedSpace.wholeBases
          rw [hanchor]
          rfl
        · unfold BasedSpace.bases
          rw [hanchor]
          rfl

end Stages

/-- A model that takes its configuration, and has no more spaces than there are handles, is what the
documents say. -/
theorem reflects_of_fill {d : Documents} {q : Processor} (h : (fill d).exec start = (.ok (), q))
    (hsize : q.registry.size < 2 ^ 32) : Reflects d q := by
  have htakes := takes_of_fillAll (exec_fill_ok.mp h).2
  obtain ⟨e, filled, narrowed, he, hfilled, hnarrowed, hregistered, hanchors⟩ := htakes.spaces
  have hsteps := hnarrowed.steps.trans hanchors.steps
  have hlater := Registry.persists_of_steps (Registry.steps_of_spaceSteps hanchors.steps)
  have hwhole := Registry.persists_of_steps (Registry.steps_of_spaceSteps hsteps)
  have hfew : filled.size < 2 ^ 32 := Nat.lt_of_le_of_lt hwhole.size_le hsize
  have hfilled' := Registry.orderly_fill hfilled hfew
  have hlaid : Registry.LaidOut e q.byteOrder filled := by
    refine Registry.laidOut_of_fill ?_ hfilled
    have hcount := Registry.size_fill hfilled
    have hone : start.registry.size = 1 := by decide
    omega
  have hq := hfilled'.of_steps hsteps hsize
  obtain ⟨hdeclared, hregisters⟩ := hregistered.location?_of_persists hlater
  refine ⟨?_, ?_, ?_, hlaid.roles_of_persists hfilled' hwhole, hdeclared, hregisters,
    hregistered.located hlater hq, ?_, ?_, ?_⟩
  · obtain ⟨root, big, alignment, temporary, hroot, hbig, halignment, htemporary, horder, halign,
      hfirst⟩ := htakes.root
    refine ⟨root, big, alignment, hroot, hbig, horder, halignment, halign, ?_⟩
    have hmax : max start.firstTemporary temporary = temporary := Word.zero_max temporary
    rw [hfirst, hmax]
    exact htemporary
  · exact htakes.floats
  · obtain ⟨s, hname, hs⟩ := hlaid.default_of_persists hfilled' hwhole
    exact ⟨e, s, he, hname, hs⟩
  · obtain ⟨names, hnames, hindices, huserOps⟩ := htakes.userOps
    refine ⟨huserOps ▸ hnames, ?_⟩
    intro k tag htag
    obtain ⟨index, hindex, hk⟩ := hindices k tag htag
    exact ⟨index, hindex, hk.trans (Nat.zero_add k)⟩
  · exact fun before tag after hsplit => narrowed_of_anchors hfilled' hnarrowed hanchors hsplit
  · intro tag htag
    rw [htag] at hanchors
    exact basedOn_of_anchors (hnarrowed.unbased hlaid.unbased) hq hanchors

/-- A big-endian model whose stack pointer is the low half of a register, and whose memory is
narrowed twice. -/
def halfStack : Documents :=
  let attributes := fun (as : List (String × String)) =>
    as.map fun a => (⟨none, a.1, a.2⟩ : Xml.Attribute)
  ⟨[⟨"sleigh", attributes [("bigendian", "true"), ("align", "0")],
    [⟨"spaces", attributes [("defaultspace", "ram")],
        [Registry.tagOf "space" [("name", "ram"), ("index", "1"), ("size", "8")],
          Registry.tagOf "space_other" [("name", "register"), ("index", "2"), ("size", "4")],
          Registry.tagOf "space_base"
            [("name", "stack"), ("index", "3"), ("size", "8"), ("contain", "ram")]]⟩,
      Registry.tagOf "truncate_space" [("space", "ram"), ("size", "2")],
      Registry.tagOf "truncate_space" [("space", "ram"), ("size", "4")],
      ⟨"register_data", [],
        [Registry.tagOf "register"
          [("name", "sp"), ("space", "register"), ("offset", "0x10"), ("size", "8")]]⟩,
      Registry.tagOf "userop" [("name", "trap"), ("index", "0")],
      Registry.tagOf "stackpointer" [("register", "sp"), ("size", "4")]]⟩]⟩

theorem reflects_halfStack :
    ∃ q, (fill halfStack).exec start = (.ok (), q) ∧ q.registry.size < 2 ^ 32 ∧
      Reflects halfStack q := by
  have hfilled : ((fill halfStack).exec start).1 = .ok () := by decide +kernel
  have hsize : ((fill halfStack).exec start).2.registry.size = 8 := by decide +kernel
  rcases hok : (fill halfStack).exec start with ⟨result, q⟩
  rw [hok] at hfilled hsize
  cases hfilled
  have hfew : q.registry.size < 2 ^ 32 := by
    rw [hsize]
    decide
  exact ⟨q, rfl, hfew, reflects_of_fill hok hfew⟩

end Processor

end Pcode
