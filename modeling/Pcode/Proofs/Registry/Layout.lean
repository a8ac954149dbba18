import Pcode.Proofs.Registry.Insertion

/-!
# The layout of a configured registry

A table of spaces is accepted exactly when it is well formed. The registry then holds the space of
constants, those of the tags in order, and behind them the spaces that every model has, each at the
next index.
-/
namespace Pcode.Registry

/-! ## The spaces that every model has -/

/-- Inserts spaces at the next indices, in order. -/
def insertAllNext : List (UInt64 → Space) → Change Unit
  | [] => pure ()
  | make :: makes => do
    insertNext make
    insertAllNext makes

/-- Spaces made for the indices from the given one on. -/
def placed : Nat → List (UInt64 → Space) → List Space
  | _, [] => []
  | n, make :: makes => make (UInt64.ofNat n) :: placed (n + 1) makes

/-- The spaces that every model has, without the temporaries where these are configured. -/
def usual (order : ByteOrder) (configured : Bool) : List (UInt64 → Space) :=
  (if configured then [] else [fun index => .ofTemporaries "unique" index order]) ++
    [.ofOpReferences, .ofCallSpecs, .ofJoins]

theorem exec_insertUsual (order : ByteOrder) (r : Registry) :
    (insertUsual order).exec r =
      (insertAllNext (usual order (r.idInRole? .temporaries).isSome)).exec r := by
  have hlast : insertAllNext [.ofJoins] = insertNext .ofJoins := bind_pure _
  unfold insertUsual
  rw [Action.exec_get_bind, ← hlast]
  cases r.idInRole? .temporaries <;> rfl

/-- The space has the index it is made for, and the name reserved for its purpose. -/
structure Usual (make : UInt64 → Space) : Prop where
  index : ∀ i, (make i).info.index = i
  name : ∀ i, (make i).name = (make 0).name
  reserved : ∀ i, (make i).purpose.reservedName? = some (make 0).name

theorem usual_usual {order : ByteOrder} {configured : Bool} :
    ∀ make ∈ usual order configured, Usual make := by
  intro make hmake
  unfold usual at hmake
  rcases List.mem_append.mp hmake with hmake | hmake
  · cases configured with
    | true => cases hmake
    | false =>
        obtain rfl := List.mem_singleton.mp hmake
        exact ⟨fun i => rfl, fun i => rfl, fun i => rfl⟩
  · simp only [List.mem_cons, List.not_mem_nil, or_false] at hmake
    rcases hmake with rfl | rfl | rfl
    · exact ⟨fun i => rfl, fun i => rfl, fun i => rfl⟩
    · exact ⟨fun i => rfl, fun i => rfl, fun i => rfl⟩
    · exact ⟨fun i => rfl, fun i => rfl, fun i => rfl⟩

/-- The names of the spaces that every model has. -/
def usualNames (configured : Bool) : List String :=
  (if configured then [] else ["unique"]) ++ ["iop", "fspec", "join"]

theorem map_name_usual (order : ByteOrder) (configured : Bool) :
    ((usual order configured).map fun make => (make 0).name) = usualNames configured := by
  cases configured <;> rfl

theorem nodup_usualNames : ∀ configured, (usualNames configured).Nodup := by decide

theorem const_not_mem_usualNames : ∀ configured, "const" ∉ usualNames configured := by decide

theorem exec_insertNext (make : UInt64 → Space) (r : Registry) :
    (insertNext make).exec r =
      match r.checkInsert (make r.nextIndex) with
      | .ok () => (.ok (), r.push (make r.nextIndex))
      | .error e => (.error e, r) := by
  unfold insertNext
  rw [Action.exec_get_bind, Action.exec_bind, exec_insert]
  cases r.checkInsert (make r.nextIndex) <;> rfl

theorem exec_insertAllNext (makes : List (UInt64 → Space)) (r : Registry) :
    (insertAllNext makes).exec r = (insertAll (placed r.size makes)).exec r := by
  induction makes generalizing r with
  | nil => rfl
  | cons make makes ih =>
      have hplaced : placed r.size (make :: makes) =
          make r.nextIndex :: placed (r.size + 1) makes := rfl
      rw [hplaced, insertAllNext, insertAll, Action.exec_bind, Action.exec_bind, exec_insertNext,
        exec_insert]
      cases r.checkInsert (make r.nextIndex) with
      | error e => rfl
      | ok _ =>
          simp only
          rw [ih, size_push]

theorem getElem?_placed (n : Nat) (makes : List (UInt64 → Space)) (k : Nat) :
    (placed n makes)[k]? = makes[k]?.map fun make => make (UInt64.ofNat (n + k)) := by
  induction makes generalizing n k with
  | nil => rfl
  | cons make makes ih =>
      cases k with
      | zero => rfl
      | succ k =>
          change (placed (n + 1) makes)[k]? = _
          rw [ih, Nat.add_right_comm]
          rfl

theorem exists_of_mem_placed {n : Nat} {makes : List (UInt64 → Space)} {s : Space}
    (h : s ∈ placed n makes) : ∃ make ∈ makes, ∃ i, make i = s := by
  obtain ⟨k, hk⟩ := List.mem_iff_getElem?.mp h
  rw [getElem?_placed, Option.map_eq_some_iff] at hk
  obtain ⟨make, hmake, hs⟩ := hk
  exact ⟨make, List.mem_of_getElem? hmake, _, hs⟩

theorem map_name_placed (n : Nat) {makes : List (UInt64 → Space)}
    (hmakes : ∀ make ∈ makes, Usual make) :
    (placed n makes).map Space.name = makes.map fun make => (make 0).name := by
  induction makes generalizing n with
  | nil => rfl
  | cons make makes ih =>
      obtain ⟨hmake, hmakes⟩ := List.forall_mem_cons.mp hmakes
      rw [placed, List.map_cons, List.map_cons, hmake.name, ih _ hmakes]

theorem fitBehind_placed_iff {r : Registry} (hr : Tabled r) {makes : List (UInt64 → Space)}
    (hmakes : ∀ make ∈ makes, Usual make) (hdistinct : (makes.map fun make => (make 0).name).Nodup)
    (hsize : r.size + makes.length ≤ 2 ^ 64) :
    FitBehind r (placed r.size makes) ↔ ∀ make ∈ makes, ∀ s ∈ r.spaces, s.name ≠ (make 0).name := by
  have hnames : ((r.spaces ++ placed r.size makes).map Space.name).Nodup ↔
      ∀ make ∈ makes, ∀ s ∈ r.spaces, s.name ≠ (make 0).name := by
    rw [List.map_append, map_name_placed _ hmakes, List.nodup_append, and_iff_right hr.distinct,
      and_iff_right hdistinct]
    simp only [List.forall_mem_map]
    exact forall₂_comm
  constructor
  · intro h
    exact hnames.mp h.names
  · intro h
    refine ⟨?_, ?_, ?_, hnames.mpr h⟩
    · intro k s hs
      rw [getElem?_placed, Option.map_eq_some_iff] at hs
      obtain ⟨make, hmake, rfl⟩ := hs
      have hk := (List.getElem?_eq_some_iff.mp hmake).1
      rw [(hmakes make (List.mem_of_getElem? hmake)).index]
      exact UInt64.toNat_ofNat_of_lt' (by change r.size + k < 2 ^ 64; omega)
    · intro s hs hconstant
      obtain ⟨make, hmake, i, rfl⟩ := exists_of_mem_placed hs
      have hreserved := (hmakes make hmake).reserved i
      rw [hconstant] at hreserved
      cases hreserved
    · intro s hs name hname
      obtain ⟨make, hmake, i, rfl⟩ := exists_of_mem_placed hs
      rw [(hmakes make hmake).reserved i] at hname
      rw [(hmakes make hmake).name]
      exact Option.some.inj hname

/-- Spaces with names of their own are all inserted unless one of the names is taken, and then stand
behind the others. -/
theorem exec_insertAllNext_ok {r : Registry} (hr : Tabled r) {makes : List (UInt64 → Space)}
    (hmakes : ∀ make ∈ makes, Usual make) (hdistinct : (makes.map fun make => (make 0).name).Nodup)
    (hsize : r.size + makes.length ≤ 2 ^ 64) :
    ((∃ t, (insertAllNext makes).exec r = (.ok (), t)) ↔
        ∀ make ∈ makes, ∀ s ∈ r.spaces, s.name ≠ (make 0).name) ∧
      ∀ t, (insertAllNext makes).exec r = (.ok (), t) →
        Tabled t ∧ t.defaultId = r.defaultId ∧ ∃ added, t.spaces = r.spaces ++ added ∧
          List.Forall₂ Space.Given (placed r.size makes) added := by
  rw [exec_insertAllNext, ← fitBehind_placed_iff hr hmakes hdistinct hsize]
  exact exec_insertAll_ok hr (placed r.size makes)

theorem exists_given_placed {n : Nat} {makes : List (UInt64 → Space)} {added : List Space}
    (h : List.Forall₂ Space.Given (placed n makes) added) {make : UInt64 → Space}
    (hmake : make ∈ makes) : ∃ i, ∃ t ∈ added, (make i).Given t := by
  induction makes generalizing n added with
  | nil => cases hmake
  | cons make' makes ih =>
      cases h with
      | cons hfirst hothers =>
          rcases List.mem_cons.mp hmake with rfl | hmake
          · exact ⟨_, _, List.mem_cons_self, hfirst⟩
          · obtain ⟨i, t, ht, hgiven⟩ := ih hothers hmake
            exact ⟨i, t, List.mem_cons_of_mem _ ht, hgiven⟩

/-! ## The default space -/

section Chosen
variable {order : ByteOrder} {es : List Xml.Element} {r t : Registry} (h : Listed order es r)
  (hsize : es.length + 1 < 2 ^ 32)
include h hsize

theorem Listed.exec_chooseDefault_ok {s : Space} (hs : s ∈ r.spaces) :
    (chooseDefault s.id).exec r = (.ok (), t) ↔
      s.isConstant = false ∧ { r with defaultId := some s.id } = t := by
  have hlength : r.size = es.length + 1 := h.filled.length
  have hfound := h.numbered.find?_id (hlength ▸ hsize) hs
  rw [Registry.exec_chooseDefault_ok, and_iff_right h.undecided, hfound]
  simp

theorem Listed.exec_chooseDefaultNamed_ok {name : String} :
    (chooseDefaultNamed name).exec r = (.ok (), t) ↔
      ∃ s ∈ r.spaces, (s.name = name ∧ s.isConstant = false) ∧
        { r with defaultId := some s.id } = t := by
  have hlength : r.size = es.length + 1 := h.filled.length
  have hnamed : ∀ {s}, r.named? name = some s ↔ s ∈ r.spaces ∧ s.name = name :=
    h.tabled.named?_eq_some_iff h.numbered (hlength ▸ hsize)
  unfold chooseDefaultNamed
  rw [Action.exec_get_bind]
  constructor
  · intro hok
    rcases hs : r.named? name with _ | s
    · rw [hs] at hok
      cases hok
    · obtain ⟨hmem, rfl⟩ := hnamed.mp hs
      rw [hs] at hok
      obtain ⟨hform, ht⟩ := (h.exec_chooseDefault_ok hsize hmem).mp hok
      exact ⟨s, hmem, ⟨rfl, hform⟩, ht⟩
  · intro hchosen
    obtain ⟨s, hmem, ⟨hname, hform⟩, ht⟩ := hchosen
    rw [hnamed.mpr ⟨hmem, hname⟩]
    exact (h.exec_chooseDefault_ok hsize hmem).mpr ⟨hform, ht⟩

end Chosen

/-! ## Tables of spaces -/

def configuresTemporaries (e : Xml.Element) : Bool :=
  e.children.any fun c => c.name == "space_unique"

/-- A table of spaces that can be made into a registry. -/
structure WellFormed (e : Xml.Element) : Prop where
  tag : e.name = "spaces"
  /-- The default space is one of those in the table. -/
  default : ∃ name, e.text "defaultspace" = .ok name ∧
    ∃ c ∈ e.children, c.text "name" = .ok name
  children : ∀ k c, e.children[k]? = some c → Admitted (e.children.take k) c
  /-- The names of the spaces that are added are not taken. -/
  references : ∀ c ∈ e.children, ∀ name ∈ ["iop", "fspec", "join"], c.text "name" ≠ .ok name
  temporaries : (∀ c ∈ e.children, c.name ≠ "space_unique") →
    ∀ c ∈ e.children, c.text "name" ≠ .ok "unique"

/-- The registry is laid out as the table says. -/
structure LaidOut (e : Xml.Element) (order : ByteOrder) (t : Registry) : Prop where
  /-- Behind the spaces of the table stand those that every model has, and nothing else. -/
  spaces : ∃ configured added, t.spaces = configured ++ added ∧ Filled order e.children configured ∧
    List.Forall₂ Space.Given
      (placed (e.children.length + 1) (usual order (configuresTemporaries e))) added
  roles : ∀ role ∈ [Role.temporaries, .opReferences, .callSpecs, .joins],
    ∃ s ∈ t.spaces, role.GoesTo s ∧ t.idInRole? role = some s.id
  default : ∃ s ∈ t.spaces, e.text "defaultspace" = .ok s.name ∧ t.defaultId = some s.id

section Table
variable {e : Xml.Element} {order : ByteOrder} {r : Registry} (h : Listed order e.children r)
include h

/-- A name other than that of constants is that of a space exactly when a tag has it. -/
theorem Listed.exists_name_iff {name : String} (hname : name ≠ "const") :
    (∃ s ∈ r.spaces, s.name = name) ↔ ∃ c ∈ e.children, c.text "name" = .ok name := by
  have hconstants : ¬constants.name = name := fun hsame => hname hsame.symm
  rw [h.filled.exists_mem_iff (Q := fun c => c.text "name" = .ok name), or_iff_right hconstants]
  intro c s htells
  rw [htells.name, Except.ok.injEq]

/-- A space that can be the default space is that of a tag. -/
theorem Listed.exists_default_iff {name : String} :
    (∃ s ∈ r.spaces, s.name = name ∧ s.isConstant = false) ↔
      ∃ c ∈ e.children, c.text "name" = .ok name := by
  have hconstants : ¬(constants.name = name ∧ constants.isConstant = false) := by
    intro hdefault
    cases hdefault.2
  rw [h.filled.exists_mem_iff (Q := fun c => c.text "name" = .ok name), or_iff_right hconstants]
  intro c s htells
  rw [htells.name, Except.ok.injEq, and_iff_left htells.form]

theorem Listed.isSome_temporaries :
    (r.idInRole? .temporaries).isSome = configuresTemporaries e := by
  have htags : (∃ s ∈ r.spaces, Role.temporaries.GoesTo s) ↔
      ∃ c ∈ e.children, c.name = "space_unique" := by
    have hconstants : ¬Role.temporaries.GoesTo constants := by
      intro hgoes
      cases hgoes
    rw [h.filled.exists_mem_iff (Q := fun c => c.name = "space_unique"),
      or_iff_right hconstants]
    exact fun htells => htells.temporary
  rw [Bool.eq_iff_iff, Option.isSome_iff_exists]
  simp only [h.tabled.idInRole?_eq_some_iff, configuresTemporaries, List.any_eq_true, beq_iff_eq,
    ← htags]
  constructor
  · intro hid
    obtain ⟨_, s, hs, hgoes, -⟩ := hid
    exact ⟨s, hs, hgoes⟩
  · intro hs
    obtain ⟨s, hs, hgoes⟩ := hs
    exact ⟨s.id, s, hs, hgoes, rfl⟩

/-- There is room for the spaces that every model has when no tag has one of their names. -/
theorem Listed.free_iff :
    (∀ make ∈ usual order (configuresTemporaries e), ∀ s ∈ r.spaces, s.name ≠ (make 0).name) ↔
      (∀ c ∈ e.children, ∀ name ∈ ["iop", "fspec", "join"], c.text "name" ≠ .ok name) ∧
        ((∀ c ∈ e.children, c.name ≠ "space_unique") →
          ∀ c ∈ e.children, c.text "name" ≠ .ok "unique") := by
  have hfree : ∀ {name}, name ≠ "const" → ((∀ s ∈ r.spaces, s.name ≠ name) ↔
      ∀ c ∈ e.children, c.text "name" ≠ .ok name) := by
    intro name hname
    have hnot := not_congr (h.exists_name_iff hname)
    simpa using hnot
  have hnames : (∀ make ∈ usual order (configuresTemporaries e), ∀ s ∈ r.spaces,
      s.name ≠ (make 0).name) ↔ ∀ name ∈ usualNames (configuresTemporaries e), ∀ c ∈ e.children,
        c.text "name" ≠ .ok name := by
    rw [← map_name_usual order, List.forall_mem_map]
    refine forall_congr' fun make => forall_congr' fun hmake => hfree ?_
    intro hconst
    apply const_not_mem_usualNames (configuresTemporaries e)
    rw [← map_name_usual order, ← hconst]
    exact List.mem_map_of_mem hmake
  have hconfigured : configuresTemporaries e = false ↔
      ∀ c ∈ e.children, c.name ≠ "space_unique" := by
    simp [configuresTemporaries]
  rw [hnames, usualNames, List.forall_mem_append, and_comm, ← hconfigured]
  refine and_congr ?_ ?_
  · exact ⟨fun h c hc name hname => h name hname c hc, fun h name hname c hc => h c hc name hname⟩
  · cases configuresTemporaries e <;> simp

theorem Listed.exec_insertUsual (id : SpaceId) :
    (insertUsual order).exec { r with defaultId := some id } =
      (insertAllNext (usual order (configuresTemporaries e))).exec { r with defaultId := some id } := by
  rw [← h.isSome_temporaries]
  exact Registry.exec_insertUsual order _

/-- With a default space the usual spaces are inserted where there is room for them. -/
theorem Listed.exec_usual_ok (hsize : e.children.length + 1 < 2 ^ 32) (id : SpaceId) :
    ((∃ t, (insertAllNext (usual order (configuresTemporaries e))).exec
        { r with defaultId := some id } = (.ok (), t)) ↔
      ∀ make ∈ usual order (configuresTemporaries e), ∀ s ∈ r.spaces, s.name ≠ (make 0).name) ∧
    ∀ t, (insertAllNext (usual order (configuresTemporaries e))).exec
        { r with defaultId := some id } = (.ok (), t) →
      Tabled t ∧ t.defaultId = some id ∧ ∃ added, t.spaces = r.spaces ++ added ∧
        List.Forall₂ Space.Given
          (placed (e.children.length + 1) (usual order (configuresTemporaries e))) added := by
  have htabled : Tabled { r with defaultId := some id } :=
    h.tabled.kept (List.forall₂_same.mpr fun s _ => Space.Kept.refl s) rfl rfl rfl rfl
  have hlength : r.size = e.children.length + 1 := h.filled.length
  have hfew : (usual order (configuresTemporaries e)).length ≤ 4 := by
    cases configuresTemporaries e <;> simp [usual]
  rw [← hlength]
  rw [← hlength] at hsize
  refine exec_insertAllNext_ok htabled usual_usual ?_ ?_
  · rw [map_name_usual]
    exact nodup_usualNames _
  · change r.size + _ ≤ _
    omega

end Table

theorem exec_fill_ok {e : Xml.Element} {order : ByteOrder} {t : Registry}
    (hsize : e.children.length + 1 < 2 ^ 32) :
    (fill e order).exec start = (.ok (), t) ↔
      e.name = "spaces" ∧ ∃ name, e.text "defaultspace" = .ok name ∧
        ∃ r, (insertElements order e.children).exec start = (.ok (), r) ∧
          ∃ s ∈ r.spaces, (s.name = name ∧ s.isConstant = false) ∧
            (insertAllNext (usual order (configuresTemporaries e))).exec
              { r with defaultId := some s.id } = (.ok (), t) := by
  have hlisted : ∀ {r}, (insertElements order e.children).exec start = (.ok (), r) →
      Listed order e.children r :=
    fun {r} => ((listed_start order).exec_insertElements_ok e.children
      (by rw [List.length_nil]; omega)).2 r
  unfold fill
  rw [Action.exec_liftM_bind_ok]
  constructor
  · intro h
    obtain ⟨⟨⟩, htag, h⟩ := h
    obtain ⟨name, hname, h⟩ := Action.exec_liftM_bind_ok.mp h
    obtain ⟨⟨⟩, r, hr, h⟩ := Action.exec_bind_ok.mp h
    obtain ⟨⟨⟩, r', hr', h⟩ := Action.exec_bind_ok.mp h
    obtain ⟨s, hs, hchosen, rfl⟩ := ((hlisted hr).exec_chooseDefaultNamed_ok hsize).mp hr'
    rw [(hlisted hr).exec_insertUsual] at h
    exact ⟨Xml.Element.requireName_eq_ok.mp htag, name, hname, r, hr, s, hs, hchosen, h⟩
  · intro h
    obtain ⟨htag, name, hname, r, hr, s, hs, hchosen, h⟩ := h
    refine ⟨⟨⟩, Xml.Element.requireName_eq_ok.mpr htag, ?_⟩
    refine Action.exec_liftM_bind_ok.mpr ⟨name, hname, ?_⟩
    refine Action.exec_bind_ok.mpr ⟨⟨⟩, r, hr, ?_⟩
    have hr' := ((hlisted hr).exec_chooseDefaultNamed_ok hsize).mpr ⟨s, hs, hchosen, rfl⟩
    refine Action.exec_bind_ok.mpr ⟨⟨⟩, _, hr', ?_⟩
    rw [(hlisted hr).exec_insertUsual]
    exact h

/-- The roles of a complete registry are held. -/
theorem exists_role_of_usual {e : Xml.Element} {order : ByteOrder} {r t : Registry}
    (h : Listed order e.children r) (ht : Tabled t) {added : List Space}
    (hspaces : t.spaces = r.spaces ++ added)
    (hadded : List.Forall₂ Space.Given
      (placed (e.children.length + 1) (usual order (configuresTemporaries e))) added) :
    ∀ role ∈ [Role.temporaries, .opReferences, .callSpecs, .joins],
      ∃ s ∈ t.spaces, role.GoesTo s ∧ t.idInRole? role = some s.id := by
  intro role hrole
  have hplaced : ∀ make : UInt64 → Space, make ∈ usual order (configuresTemporaries e) →
      (∀ i, role.GoesTo (make i)) → ∃ s ∈ t.spaces, role.GoesTo s := by
    intro make hmake hgoes
    obtain ⟨i, s, hs, hgiven⟩ := exists_given_placed hadded hmake
    refine ⟨s, hspaces ▸ List.mem_append_right _ hs, ?_⟩
    rw [← Role.ofInfo?_eq_some_iff, hgiven.role, Role.ofInfo?_eq_some_iff]
    exact hgoes i
  have hgoes : ∃ s ∈ t.spaces, role.GoesTo s := by
    simp only [List.mem_cons, List.not_mem_nil, or_false] at hrole
    rcases hrole with rfl | rfl | rfl | rfl
    · have hconfigured := h.isSome_temporaries
      cases hconf : configuresTemporaries e with
      | false =>
          rw [hconf] at hplaced
          exact hplaced (fun index => .ofTemporaries "unique" index order)
            List.mem_cons_self fun i => rfl
      | true =>
          rw [hconf, Option.isSome_iff_exists] at hconfigured
          obtain ⟨id, hid⟩ := hconfigured
          obtain ⟨s, hs, hgoes, -⟩ := h.tabled.idInRole?_eq_some_iff.mp hid
          exact ⟨s, hspaces ▸ List.mem_append_left _ hs, hgoes⟩
    · exact hplaced .ofOpReferences (List.mem_append_right _ (by simp)) fun i => rfl
    · exact hplaced .ofCallSpecs (List.mem_append_right _ (by simp)) fun i => rfl
    · exact hplaced .ofJoins (List.mem_append_right _ (by simp)) fun i => rfl
  obtain ⟨s, hs, hgoes⟩ := hgoes
  exact ⟨s, hs, hgoes, ht.idInRole?_eq_some_iff.mpr ⟨s, hs, hgoes, rfl⟩⟩

/-- What is made of a table of spaces is laid out as the table says. -/
theorem laidOut_of_fill {e : Xml.Element} {order : ByteOrder} {t : Registry}
    (hsize : e.children.length + 1 < 2 ^ 32) (h : (fill e order).exec start = (.ok (), t)) :
    LaidOut e order t := by
  obtain ⟨-, name, hname, r, hr, s, hs, ⟨rfl, -⟩, ht⟩ := (exec_fill_ok hsize).mp h
  have hlisted := ((listed_start order).exec_insertElements_ok e.children
    (by rw [List.length_nil]; omega)).2 r hr
  obtain ⟨htabled, hdefault, added, hspaces, hadded⟩ := (hlisted.exec_usual_ok hsize s.id).2 t ht
  refine ⟨⟨r.spaces, added, hspaces, hlisted.filled, hadded⟩,
    exists_role_of_usual hlisted htabled hspaces hadded, s, ?_, hname, hdefault⟩
  rw [hspaces]
  exact List.mem_append_left _ hs

/-- A table of spaces is made into a registry exactly when it is well formed, and the registry is
then laid out as the table says. The spaces of the table must have handles of their own. -/
theorem fill_iff_wellFormed {e : Xml.Element} {order : ByteOrder}
    (hsize : e.children.length + 1 < 2 ^ 32) :
    ((∃ t, (fill e order).exec start = (.ok (), t)) ↔ WellFormed e) ∧
      ∀ t, (fill e order).exec start = (.ok (), t) → LaidOut e order t := by
  obtain ⟨hinserted, hlisted⟩ := (listed_start order).exec_insertElements_ok e.children
    (by rw [List.length_nil]; omega)
  simp only [exec_fill_ok hsize]
  refine ⟨⟨?_, ?_⟩, ?_⟩
  · intro h
    obtain ⟨t, htag, name, hname, r, hr, s, hs, hchosen, ht⟩ := h
    have hr' := hlisted r hr
    obtain ⟨hreferences, htemporaries⟩ :=
      hr'.free_iff.mp ((hr'.exec_usual_ok hsize s.id).1.mp ⟨t, ht⟩)
    exact ⟨htag, ⟨name, hname, hr'.exists_default_iff.mp ⟨s, hs, hchosen⟩⟩,
      hinserted.mp ⟨r, hr⟩, hreferences, htemporaries⟩
  · intro h
    obtain ⟨name, hname, hdefault⟩ := h.default
    obtain ⟨r, hr⟩ := hinserted.mpr h.children
    have hr' := hlisted r hr
    obtain ⟨s, hs, hchosen⟩ := hr'.exists_default_iff.mpr hdefault
    obtain ⟨t, ht⟩ := (hr'.exec_usual_ok hsize s.id).1.mpr
      (hr'.free_iff.mpr ⟨h.references, h.temporaries⟩)
    exact ⟨t, h.tag, name, hname, r, hr, s, hs, hchosen, ht⟩
  · intro t h
    exact laidOut_of_fill hsize ((exec_fill_ok hsize).mpr h)

/-- The tag of a space with some attributes. -/
def tagOf (tag : String) (attributes : List (String × String)) : Xml.Element :=
  ⟨tag, attributes.map fun a => ⟨none, a.1, a.2⟩, []⟩

/-- A table of memory, registers and a stack in the memory. -/
def stackTable : Xml.Element :=
  ⟨"spaces", [⟨none, "defaultspace", "ram"⟩],
    [tagOf "space" [("name", "ram"), ("index", "1"), ("size", "4"), ("delay", "1")],
      tagOf "space_other" [("name", "register"), ("index", "0x2"), ("size", "4")],
      tagOf "space_base"
        [("name", "stack"), ("index", "3"), ("size", "4"), ("contain", "ram")]]⟩

theorem fill_stackTable :
    stackTable.children.length + 1 < 2 ^ 32 ∧ WellFormed stackTable ∧
      ∃ t, (fill stackTable .little).exec start = (.ok (), t) ∧ LaidOut stackTable .little t := by
  have hsize : stackTable.children.length + 1 < 2 ^ 32 := by decide
  have hfilled : ((fill stackTable .little).exec start).1 = .ok () := by decide +kernel
  obtain ⟨hiff, hlaid⟩ := @fill_iff_wellFormed stackTable .little hsize
  rcases hok : (fill stackTable .little).exec start with ⟨result, t⟩
  rw [hok] at hfilled
  cases hfilled
  exact ⟨hsize, hiff.mp ⟨t, hok⟩, t, rfl, hlaid t hok⟩

end Pcode.Registry
