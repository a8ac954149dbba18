import Pcode.Proofs.Architecture.Configuring

/-!
# The life of a model

Whatever is asked of a model, in whatever order, it decodes nothing until it is configured. From then
on its byte order and alignment stay as they are, and it decodes only where they allow it.
-/
namespace Pcode

namespace Processor

/-- What becomes of a processor model in time: its alignment stays positive, temporaries that are
kept stay kept, and once it is frozen it stays so, with its byte order and its alignment. -/
structure Ages (p q : Processor) : Prop where
  alignment : 1 ≤ p.alignment → 1 ≤ q.alignment
  firstTemporary : p.firstTemporary ≤ q.firstTemporary
  frozen : p.isFrozen = true →
    q.isFrozen = true ∧ q.alignment = p.alignment ∧ q.byteOrder = p.byteOrder

namespace Ages
variable {p q r : Processor}

theorem refl (p : Processor) : Ages p p :=
  ⟨id, UInt64.le_refl _, fun h => ⟨h, rfl, rfl⟩⟩

theorem trans (h : Ages p q) (h' : Ages q r) : Ages p r where
  alignment := fun hp => h'.alignment (h.alignment hp)
  firstTemporary := UInt64.le_trans h.firstTemporary h'.firstTemporary
  frozen := by
    intro hp
    obtain ⟨hq, halignment, horder⟩ := h.frozen hp
    obtain ⟨hr, halignment', horder'⟩ := h'.frozen hq
    exact ⟨hr, halignment'.trans halignment, horder'.trans horder⟩

end Ages

theorem ages_freeze (p : Processor) : Ages p p.freeze :=
  ⟨id, UInt64.le_refl _, fun _ => ⟨rfl, rfl, rfl⟩⟩

/-- A change of a processor model that neither freezes it nor undoes that. -/
structure Changes (p q : Processor) : Prop extends Ages p q where
  isFrozen : q.isFrozen = p.isFrozen

namespace Changes

theorem of_same {p q : Processor} (halignment : q.alignment = p.alignment)
    (horder : q.byteOrder = p.byteOrder) (hfirst : q.firstTemporary = p.firstTemporary)
    (hfrozen : q.isFrozen = p.isFrozen) : Changes p q where
  alignment := fun h => halignment ▸ h
  firstTemporary := hfirst ▸ UInt64.le_refl _
  frozen := fun h => ⟨hfrozen.trans h, halignment, horder⟩
  isFrozen := hfrozen

theorem refl (p : Processor) : Changes p p := .of_same rfl rfl rfl rfl

/-- A model that is not frozen may change its byte order and its alignment. -/
theorem of_open {p q : Processor} (hp : p.isFrozen = false) (hq : q.isFrozen = false)
    (halignment : 1 ≤ p.alignment → 1 ≤ q.alignment)
    (hfirst : p.firstTemporary ≤ q.firstTemporary) : Changes p q := by
  refine ⟨⟨halignment, hfirst, fun h => ?_⟩, hq.trans hp.symm⟩
  rw [hp] at h
  cases h

end Changes

theorem changes_keepTemporaries (p : Processor) (offset : UInt64) :
    Changes p (p.keepTemporaries offset) := by
  rw [keepTemporaries_eq]
  exact ⟨⟨id, Word.le_max_left .., fun h => ⟨h, rfl, rfl⟩⟩, rfl⟩

theorem changes_addUsualFloats (p : Processor) : Changes p p.addUsualFloats := by
  rw [addUsualFloats_eq]
  exact .of_same rfl rfl rfl rfl

theorem exec_setAlignment (alignment : UInt64) (p : Processor) :
    (setAlignment alignment).exec p =
      if p.isFrozen then (.error .alreadyFrozen, p)
      else (.ok (), { p with alignment := max alignment 1 }) := by
  unfold setAlignment
  rw [Action.exec_get_bind]
  cases p.isFrozen <;> rfl

theorem exec_setByteOrder (byteOrder : ByteOrder) (p : Processor) :
    (setByteOrder byteOrder).exec p =
      if p.isFrozen then (.error .alreadyFrozen, p) else (.ok (), { p with byteOrder }) := by
  unfold setByteOrder
  rw [Action.exec_get_bind]
  cases p.isFrozen <;> rfl

theorem changes_setAlignment (alignment : UInt64) (p : Processor) :
    Changes p ((setAlignment alignment).exec p).2 := by
  rw [exec_setAlignment]
  cases hp : p.isFrozen with
  | true => exact .refl p
  | false => exact .of_open hp rfl (fun _ => Word.le_max_right alignment 1) (UInt64.le_refl _)

theorem changes_setByteOrder (byteOrder : ByteOrder) (p : Processor) :
    Changes p ((setByteOrder byteOrder).exec p).2 := by
  rw [exec_setByteOrder]
  cases hp : p.isFrozen with
  | true => exact .refl p
  | false => exact .of_open hp rfl id (UInt64.le_refl _)

theorem changes_of_fill {d : Config.Documents} {p q : Processor}
    (h : (fill d).exec p = (.ok (), q)) : Changes p q := by
  obtain ⟨hopen, h⟩ := exec_fill_ok.mp h
  have htakes := takes_of_fillAll h
  obtain ⟨_, _, alignment, temporary, -, -, -, -, -, halignment, hfirst⟩ := htakes.root
  exact .of_open hopen (htakes.isFrozen.trans hopen) (fun _ => halignment ▸ Word.le_max_right ..)
    (hfirst ▸ Word.le_max_left ..)

theorem changes_fill (d : Config.Documents) (p : Processor) : Changes p ((fill d).exec p).2 := by
  rcases h : (fill d).exec p with ⟨cause | ⟨⟩, q⟩
  · rw [fill_eq_error h]
    exact .refl p
  · exact changes_of_fill h

/-- Instructions are decoded by a frozen model, at multiples of its alignment. -/
theorem checkPlace_eq (p : Processor) (address : Address) :
    p.checkPlace address =
      if p.isFrozen then
        if p.alignment.toNat ∣ address.offset.toNat then .ok ()
        else .error (.misaligned address.offset p.alignment)
      else .error .notFrozen := by
  have hplace : (p.alignment ≠ 1 ∧ address.offset % p.alignment ≠ 0) ↔
      ¬p.alignment.toNat ∣ address.offset.toNat := by
    rw [ne_eq, ne_eq, Word.mod_eq_zero_iff, and_iff_right_iff_imp]
    intro hno hone
    rw [hone] at hno
    exact hno (Nat.one_dvd _)
  unfold checkPlace
  simp only [hplace]
  cases p.isFrozen with
  | false => rfl
  | true => by_cases hdvd : p.alignment.toNat ∣ address.offset.toNat <;> simp [hdvd] <;> rfl

end Processor

namespace Mini
open Architecture (configure fillFields)
open Config (Documents)
open Processor (Ages Changes)

/-! ## Requests -/

/-- What can be asked of a model, with the arguments. The space registry may be changed at will. -/
inductive Request where
  | configure (d : Documents)
  | setAlignment (alignment : UInt64)
  | setByteOrder (byteOrder : ByteOrder)
  | keepTemporaries (offset : UInt64)
  | addRegister (name : String) (location : Varnode)
  | addFloat (layout : FloatLayout)
  | addUsualFloats
  | changeRegistry (change : Registry → Registry)
  | defineField (name : String) (first last : UInt64)
  | setFieldDefault (name : String) (value : UInt32)
  | letSetFields (maySetFields : Bool)
  | fillFields (d : Documents)
  | fill (d : Documents)
  /-- Any of the decode operations, which change nothing. -/
  | decode (address : Address) (bytes : List UInt8)

/-- Changes the processor model and nothing else. -/
def changeProcessor (m : Mini) (change : Processor → Processor) : Mini :=
  { m with processor := change m.processor }

namespace Request

/-- The model that a request leaves behind, whether it is granted or not. -/
def perform (m : Mini) : Request → Mini
  | configure d => ((Architecture.configure d).exec m).2
  | setAlignment alignment =>
    ((Architecture.onProcessor (Processor.setAlignment alignment)).exec m).2
  | setByteOrder byteOrder =>
    ((Architecture.onProcessor (Processor.setByteOrder byteOrder)).exec m).2
  | keepTemporaries offset => m.changeProcessor fun p => p.keepTemporaries offset
  | addRegister name location =>
    ((Architecture.onProcessor (Processor.addRegister name location)).exec m).2
  | addFloat layout => m.changeProcessor fun p => p.addFloat layout
  | addUsualFloats => m.changeProcessor Processor.addUsualFloats
  | changeRegistry change => m.changeProcessor fun p => { p with registry := change p.registry }
  | defineField name first last =>
    ((Architecture.defineField name first last : Action Mini Config.Error Unit).exec m).2
  | setFieldDefault name value =>
    ((Architecture.setFieldDefault name value : Action Mini Config.Error Unit).exec m).2
  | letSetFields maySetFields => Architecture.letSetFields m maySetFields
  | fillFields d => ((Architecture.fillFields d : Action Mini Config.Error Unit).exec m).2
  | fill d => ((Architecture.onProcessor (Processor.fill d)).exec m).2
  | decode _ _ => m

end Request

/-- The model after some requests. -/
def after (m : Mini) (history : List Request) : Mini := history.foldl Request.perform m

theorem after_append (m : Mini) (earlier later : List Request) :
    m.after (earlier ++ later) = (m.after earlier).after later :=
  List.foldl_append

/-- One of the requests configured the model. -/
def Configured (m : Mini) (history : List Request) : Prop :=
  ∃ earlier d later, history = earlier ++ .configure d :: later ∧
    ((configure d).exec (m.after earlier)).1 = .ok ()

theorem configured_cons {m : Mini} {q : Request} {history : List Request} :
    Configured m (q :: history) ↔
      (∃ d, q = .configure d ∧ ((configure d).exec m).1 = .ok ()) ∨
        Configured (q.perform m) history := by
  constructor
  · intro h
    obtain ⟨earlier, d, later, hsplit, hok⟩ := h
    cases earlier with
    | nil =>
        obtain ⟨rfl, rfl⟩ := List.cons.inj hsplit
        exact .inl ⟨d, rfl, hok⟩
    | cons q' earlier =>
        obtain ⟨rfl, rfl⟩ := List.cons.inj hsplit
        exact .inr ⟨earlier, d, later, rfl, hok⟩
  · intro h
    rcases h with ⟨d, rfl, hok⟩ | ⟨earlier, d, later, rfl, hok⟩
    · exact ⟨[], d, history, rfl, hok⟩
    · exact ⟨q :: earlier, d, later, rfl, hok⟩

/-! ## One request -/

/-- Only a request to configure the model can freeze it. -/
theorem changes_perform {m : Mini} {q : Request} (hq : ∀ d, q ≠ .configure d) :
    Changes m.processor (q.perform m).processor := by
  cases q with
  | configure d => exact absurd rfl (hq d)
  | setAlignment alignment => exact Processor.changes_setAlignment alignment m.processor
  | setByteOrder byteOrder => exact Processor.changes_setByteOrder byteOrder m.processor
  | keepTemporaries offset => exact Processor.changes_keepTemporaries m.processor offset
  | addUsualFloats => exact Processor.changes_addUsualFloats m.processor
  | fillFields d =>
      obtain ⟨context, hcontext⟩ := exists_context_fillFields d m
      change Changes m.processor ((fillFields d).exec m : Except Config.Error Unit × Mini).2.processor
      rw [hcontext]
      exact .refl _
  | fill d => exact Processor.changes_fill d m.processor
  | _ => exact .of_same rfl rfl rfl rfl

/-- A request to configure a model that succeeds freezes it, and one that fails does not. -/
theorem ages_configure (d : Documents) (m : Mini) :
    Ages m.processor ((configure d).exec m).2.processor ∧
      (((configure d).exec m).2.processor.isFrozen = true ↔
        m.processor.isFrozen = true ∨ ((configure d).exec m).1 = .ok ()) := by
  have hconfigures := configures d m
  generalize (configure d).exec m = ended at hconfigures ⊢
  cases hconfigures with
  | refused _ => exact ⟨.refl _, by simp⟩
  | halfTaken hfill =>
      have hchanges := Processor.changes_of_fill hfill
      refine ⟨hchanges.toAges, ?_⟩
      rw [hchanges.isFrozen]
      simp
  | taken hfill =>
      refine ⟨(Processor.changes_of_fill hfill).toAges.trans (Processor.ages_freeze _), ?_⟩
      exact iff_of_true rfl (.inr rfl)

theorem ages_perform (m : Mini) (q : Request) :
    Ages m.processor (q.perform m).processor ∧
      ((q.perform m).processor.isFrozen = true ↔ m.processor.isFrozen = true ∨
        ∃ d, q = .configure d ∧ ((configure d).exec m).1 = .ok ()) := by
  by_cases hq : ∃ d, q = .configure d
  · obtain ⟨d, rfl⟩ := hq
    obtain ⟨hages, hfrozen⟩ := ages_configure d m
    refine ⟨hages, hfrozen.trans (or_congr_right ?_)⟩
    simp
  · rw [not_exists] at hq
    have hchanges := changes_perform (m := m) hq
    refine ⟨hchanges.toAges, ?_⟩
    rw [hchanges.isFrozen]
    refine (or_iff_left ?_).symm
    rintro ⟨d, hd, -⟩
    exact hq d hd

/-! ## Several requests -/

theorem ages_after (m : Mini) (history : List Request) :
    Ages m.processor (m.after history).processor := by
  induction history generalizing m with
  | nil => exact .refl _
  | cons q history ih => exact (ages_perform m q).1.trans (ih (q.perform m))

theorem isFrozen_after_iff (m : Mini) (history : List Request) :
    (m.after history).processor.isFrozen = true ↔
      m.processor.isFrozen = true ∨ Configured m history := by
  induction history generalizing m with
  | nil =>
      refine (or_iff_left ?_).symm
      rintro ⟨earlier, d, later, hsplit, -⟩
      simp at hsplit
  | cons q history ih =>
      change ((q.perform m).after history).processor.isFrozen = true ↔ _
      rw [ih, (ages_perform m q).2, configured_cons, or_assoc]

/-! ## Decoding -/

/-- Every decode operation fails for this cause, and none passes anything on. -/
structure Refuses (m : Mini) (address : Address) (bytes : List UInt8) (cause : Processor.Error) :
    Prop where
  measure : Architecture.measure m address bytes = .error cause
  emit : Architecture.emit m address bytes = ⟨[], .error cause⟩
  print : Architecture.print m address bytes = ⟨[], .error cause⟩
  lift : Architecture.lift m address bytes = .error cause
  disassemble : Architecture.disassemble m address bytes = .error cause

/-- All decode operations pass the same check first. -/
theorem refuses_of_checkPlace {m : Mini} {address : Address} {cause : Processor.Error}
    (h : m.processor.checkPlace address = .error cause) (bytes : List UInt8) :
    Refuses m address bytes cause := by
  have hinstruction : m.instruction address bytes = .error cause := by
    unfold instruction
    rw [h]
    rfl
  have hlifted : m.lifted address bytes = .error cause := by
    unfold lifted
    rw [hinstruction]
    rfl
  have hprinted : m.printed address bytes = .error cause := by
    unfold printed
    rw [hinstruction]
    rfl
  refine ⟨?_, ?_, ?_, ?_, ?_⟩
  · change (m.processor.checkPlace address >>= _) = _
    rw [h]
    rfl
  · change Decoding.ofExcept (m.lifted address bytes) = _
    rw [hlifted]
    rfl
  · change Decoding.ofExcept (m.printed address bytes) = _
    rw [hprinted]
    rfl
  · unfold Architecture.lift
    change (m.processor.checkPlace address >>= _) = _
    rw [h]
    rfl
  · unfold Architecture.disassemble
    change (m.processor.checkPlace address >>= _) = _
    rw [h]
    rfl

/-! ## The whole life -/

/-- The model is configured for good: it takes no other configuration, alignment or byte order, a
request for one changes nothing, and it decodes at multiples of its alignment only. -/
structure Fixed (m : Mini) : Prop where
  configure : ∀ d,
    (configure d).exec m = (.error (.refused (.config (.broken .oneConfiguration))), m)
  setAlignment : ∀ alignment,
    (Architecture.onProcessor (Processor.setAlignment alignment)).exec m =
      (.error .alreadyFrozen, m)
  setByteOrder : ∀ byteOrder,
    (Architecture.onProcessor (Processor.setByteOrder byteOrder)).exec m =
      (.error .alreadyFrozen, m)
  misaligned : ∀ address bytes, ¬m.processor.alignment.toNat ∣ address.offset.toNat →
    Refuses m address bytes (.misaligned address.offset m.processor.alignment)

theorem fixed_of_isFrozen {m : Mini} (h : m.processor.isFrozen = true) : Fixed m where
  configure := by
    intro d
    have hfill : (Processor.fill d).exec m.processor =
        (.error (.refused (.broken .oneConfiguration)), m.processor) := by
      rw [Processor.exec_fill, if_pos h]
    exact configure_of_error hfill
  setAlignment := by
    intro alignment
    rw [exec_onProcessor, Processor.exec_setAlignment, if_pos h]
  setByteOrder := by
    intro byteOrder
    rw [exec_onProcessor, Processor.exec_setByteOrder, if_pos h]
  misaligned := by
    intro address bytes hplace
    refine refuses_of_checkPlace ?_ bytes
    rw [Processor.checkPlace_eq, if_pos h, if_neg hplace]

/-- Whatever is asked of a model, its alignment is positive and what is kept of the temporaries stays
kept. Until a request to configure it has succeeded, nothing can be decoded. From then on it is
configured for good, with one alignment and one byte order. -/
theorem lifecycle (history : List Request) :
    1 ≤ (start.after history).processor.alignment ∧
    (∀ later, (start.after history).processor.firstTemporary ≤
      (start.after (history ++ later)).processor.firstTemporary) ∧
    (¬Configured start history →
      ∀ address bytes, Refuses (start.after history) address bytes .notFrozen) ∧
    (Configured start history → ∀ later,
      Fixed (start.after (history ++ later)) ∧
      (start.after (history ++ later)).processor.alignment =
        (start.after history).processor.alignment ∧
      (start.after (history ++ later)).processor.byteOrder =
        (start.after history).processor.byteOrder) := by
  have hfrozen : (start.after history).processor.isFrozen = true ↔ Configured start history :=
    (isFrozen_after_iff start history).trans (or_iff_right Bool.false_ne_true)
  have hlater : ∀ later, Ages (start.after history).processor
      (start.after (history ++ later)).processor := by
    intro later
    rw [after_append]
    exact ages_after _ later
  refine ⟨(ages_after start history).alignment (UInt64.le_refl 1), ?_, ?_, ?_⟩
  · exact fun later => (hlater later).firstTemporary
  · intro hopen address bytes
    refine refuses_of_checkPlace ?_ bytes
    rw [Processor.checkPlace_eq, if_neg (mt hfrozen.mp hopen)]
  · intro hconfigured later
    obtain ⟨hfixed, halignment, horder⟩ := (hlater later).frozen (hfrozen.mpr hconfigured)
    exact ⟨fixed_of_isFrozen hfixed, halignment, horder⟩

/-- A configuration of one memory, with instructions at multiples of four. -/
def alignedMemory : Documents :=
  let attributes := fun (as : List (String × String)) =>
    as.map fun a => (⟨none, a.1, a.2⟩ : Xml.Attribute)
  ⟨[⟨"sleigh", attributes [("bigendian", "false"), ("align", "4")],
    [⟨"spaces", attributes [("defaultspace", "ram")],
      [⟨"space", attributes [("name", "ram"), ("index", "1"), ("size", "4")], []⟩]⟩]⟩]⟩

theorem lifecycle_alignedMemory :
    Configured start [.setAlignment 2, .configure alignedMemory] ∧
      Fixed (start.after [.setAlignment 2, .configure alignedMemory, .setAlignment 1]) ∧
      (start.after [.setAlignment 2, .configure alignedMemory]).processor.alignment = 4 := by
  have hok : ((configure alignedMemory).exec (start.after [.setAlignment 2])).1 = .ok () := by
    decide +kernel
  have hconfigured : Configured start [.setAlignment 2, .configure alignedMemory] :=
    ⟨[.setAlignment 2], alignedMemory, [], rfl, hok⟩
  exact ⟨hconfigured, ((lifecycle _).2.2.2 hconfigured [.setAlignment 1]).1, by decide +kernel⟩

end Mini

end Pcode
