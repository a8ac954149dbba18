import Pcode.Proofs.Architecture.Configuring

/-!
# Configuring again after failures

A configuration that the processor model refuses leaves no trace, and another one can be tried. One
that the model takes and the context fields refuse stays half taken, and no other one is taken then.
-/
namespace Pcode.Mini
open Architecture (configure)
open Config (Documents)

/-- What an attempt to configure leaves behind, whether it succeeds or not. -/
def attempt (m : Mini) (d : Documents) : Mini := ((configure d).exec m).2

/-- What several attempts leave behind. -/
def attempts (m : Mini) (ds : List Documents) : Mini := ds.foldl attempt m

/-- A new processor model takes the configuration, whatever becomes of the context fields. -/
def Fills (d : Documents) : Prop := ((Processor.fill d).exec Processor.start).1 = .ok ()

/-! ## One attempt -/

def registry (m : Mini) : Registry := m.processor.registry

/-- A configuration that the processor model takes leaves its spaces behind, whatever becomes of
the context fields. -/
theorem registry_attempt {d : Documents} {m : Mini} {p : Processor}
    (h : (Processor.fill d).exec m.processor = (.ok (), p)) :
    (m.attempt d).registry = p.registry := by
  have hconfigures := configures d m
  unfold attempt
  generalize (configure d).exec m = ended at hconfigures ⊢
  cases hconfigures with
  | refused hfill =>
      rw [h] at hfill
      cases hfill
  | halfTaken hfill =>
      cases h.symm.trans hfill
      rfl
  | taken hfill =>
      cases h.symm.trans hfill
      rfl

/-! ## Several attempts -/

/-- Once a model has a default space, no configuration succeeds and none changes anything. -/
theorem configure_of_default {m : Mini} {id : SpaceId} (hm : m.registry.defaultId = some id)
    (d : Documents) : ∃ cause, (configure d).exec m = (.error cause, m) := by
  obtain ⟨cause, h⟩ := Processor.fill_of_default hm d
  exact ⟨_, configure_of_error h⟩

theorem attempts_of_default {m : Mini} {id : SpaceId} (hm : m.registry.defaultId = some id)
    (ds : List Documents) : m.attempts ds = m := by
  induction ds with
  | nil => rfl
  | cons d ds ih =>
      obtain ⟨cause, h⟩ := configure_of_default hm d
      have hsame : m.attempt d = m := congrArg Prod.snd h
      change (m.attempt d).attempts ds = m
      rw [hsame]
      exact ih

theorem attempt_of_not_fills {d : Documents} (h : ¬Fills d) : start.attempt d = start := by
  rcases hfill : (Processor.fill d).exec Processor.start with ⟨cause | ⟨⟩, p⟩
  · exact congrArg Prod.snd (configure_of_error (m := start) hfill)
  · exact absurd (congrArg Prod.fst hfill) h

theorem attempts_of_not_fills {ds : List Documents} (h : ∀ d ∈ ds, ¬Fills d) :
    start.attempts ds = start := by
  induction ds with
  | nil => rfl
  | cons d ds ih =>
      change (start.attempt d).attempts ds = start
      rw [attempt_of_not_fills (h d List.mem_cons_self)]
      exact ih fun e he => h e (List.mem_cons_of_mem d he)

theorem attempts_of_fills {ds : List Documents} (h : ∃ d ∈ ds, Fills d) :
    ∃ id, (start.attempts ds).registry.defaultId = some id := by
  induction ds with
  | nil =>
      obtain ⟨d, hd, -⟩ := h
      cases hd
  | cons d ds ih =>
      change ∃ id, ((start.attempt d).attempts ds).registry.defaultId = some id
      by_cases hd : Fills d
      · rcases hfill : (Processor.fill d).exec Processor.start with ⟨a, p⟩
        have hok : a = .ok () := (congrArg Prod.fst hfill).symm.trans hd
        rw [hok] at hfill
        obtain ⟨-, id, hid⟩ := Processor.fill_eq_ok hfill
        have hleft : (start.attempt d).registry.defaultId = some id := by
          rw [registry_attempt (m := start) hfill, hid]
        rw [attempts_of_default hleft]
        exact ⟨id, hleft⟩
      · rw [attempt_of_not_fills hd]
        obtain ⟨e, he, hfills⟩ := h
        rcases List.mem_cons.mp he with rfl | he
        · exact absurd hfills hd
        · exact ih ⟨e, he, hfills⟩

/-- After attempts that the processor model refused, a configuration has the outcome and the effect
that it has on a new model. After one that the processor model took, as it does where only context
fields are at fault, every configuration fails and changes nothing. So one that succeeds on a new
model succeeds after the attempts exactly if the processor model took none of them. -/
theorem configure_after_attempts (ds : List Documents) (d : Documents) :
    ((∀ e ∈ ds, ¬Fills e) →
      (configure d).exec (start.attempts ds) = (configure d).exec start) ∧
    ((∃ e ∈ ds, Fills e) →
      ∃ cause, (configure d).exec (start.attempts ds) = (.error cause, start.attempts ds)) ∧
    (((configure d).exec start).1 = .ok () →
      (((configure d).exec (start.attempts ds)).1 = .ok () ↔ ∀ e ∈ ds, ¬Fills e)) := by
  have hclean : (∀ e ∈ ds, ¬Fills e) →
      (configure d).exec (start.attempts ds) = (configure d).exec start := by
    intro h
    rw [attempts_of_not_fills h]
  have hstuck : (∃ e ∈ ds, Fills e) →
      ∃ cause, (configure d).exec (start.attempts ds) = (.error cause, start.attempts ds) := by
    intro h
    obtain ⟨id, hid⟩ := attempts_of_fills h
    exact configure_of_default hid d
  refine ⟨hclean, hstuck, ?_⟩
  intro hfresh
  constructor
  · intro hok e he hfills
    obtain ⟨cause, herror⟩ := hstuck ⟨e, he, hfills⟩
    rw [herror] at hok
    cases hok
  · intro h
    rw [hclean h]
    exact hfresh

/-! ## A fault of context fields -/

/-- A tag with attributes in no namespace. -/
def tag (name : String) (attributes : List (String × String)) (children : List Xml.Element) :
    Xml.Element :=
  ⟨name, attributes.map fun a => ⟨none, a.1, a.2⟩, children⟩

/-- A document with one space of memory, and these further tags. -/
def memoryWith (tags : List Xml.Element) : Documents :=
  let ram := tag "space" [("name", "ram"), ("index", "1"), ("size", "4"), ("delay", "1")] []
  ⟨[tag "sleigh" [("bigendian", "false")] (tag "spaces" [("defaultspace", "ram")] [ram] :: tags)]⟩

/-- A context field that does not lie in one word. -/
def wideField : Xml.Element :=
  tag "context_field" [("name", "wide"), ("startbit", "0"), ("endbit", "32")] []

/-- The configuration with the field at fault fails. The one without it succeeds on a new model, but
not after that failure. -/
theorem retry_fails :
    ((configure (memoryWith [wideField])).exec start).1 =
        .error (.refused (.config (.fieldSpansWords "wide" 0 32))) ∧
      ((configure (memoryWith [])).exec start).1 = .ok () ∧
      ((configure (memoryWith [])).exec (start.attempts [memoryWith [wideField]])).1 =
        .error (.refused (.config (.indexTaken 1))) := by
  decide +kernel

end Pcode.Mini
