import ScriptBundle.Error
import ScriptBundle.Log.Event

/-! Results that come with the events reported on the way to them. A failure keeps the events that
came before it. -/
namespace ScriptBundle

structure Logged (α : Type) where
  events : List Event
  outcome : Except BundleError α

namespace Logged

variable {α β : Type}

protected def pure (a : α) : Logged α := ⟨[], .ok a⟩

protected def bind (x : Logged α) (f : α → Logged β) : Logged β :=
  match x.outcome with
  | .ok a => ⟨x.events ++ (f a).events, (f a).outcome⟩
  | .error e => ⟨x.events, .error e⟩

instance : Monad Logged where
  pure := Logged.pure
  bind := Logged.bind

def tell (e : Event) : Logged Unit := ⟨[e], .ok ()⟩

def tellAll (events : List Event) : Logged Unit := ⟨events, .ok ()⟩

def fail (e : BundleError) : Logged α := ⟨[], .error e⟩

@[simp] theorem outcome_pure (a : α) : (pure a : Logged α).outcome = .ok a := rfl

@[simp] theorem outcome_bind (x : Logged α) (f : α → Logged β) :
    (x >>= f).outcome = x.outcome.bind fun a => (f a).outcome := by
  show (Logged.bind x f).outcome = _
  unfold Logged.bind
  cases x.outcome <;> rfl

theorem outcome_bind_ok {x : Logged α} {f : α → Logged β} {b : β} :
    (x >>= f).outcome = .ok b ↔ ∃ a, x.outcome = .ok a ∧ (f a).outcome = .ok b := by
  rw [outcome_bind]
  cases x.outcome <;> simp [Except.bind]

theorem outcome_bind_error {x : Logged α} {f : α → Logged β} {e : BundleError} :
    (x >>= f).outcome = .error e ↔
      x.outcome = .error e ∨ ∃ a, x.outcome = .ok a ∧ (f a).outcome = .error e := by
  rw [outcome_bind]
  cases x.outcome <;> simp [Except.bind]

@[simp] theorem outcome_tell (e : Event) : (tell e).outcome = .ok () := rfl

@[simp] theorem outcome_tellAll (events : List Event) : (tellAll events).outcome = .ok () := rfl

@[simp] theorem outcome_fail (e : BundleError) : (fail e : Logged α).outcome = .error e := rfl

/-- The result meets `post` when there is one, and otherwise the error meets `fault`. -/
structure Ensures (x : Logged α) (post : α → Prop) (fault : BundleError → Prop) : Prop where
  of_ok : ∀ {a}, x.outcome = .ok a → post a
  of_error : ∀ {e}, x.outcome = .error e → fault e

section

variable {x y : Logged α} {f : α → Logged β} {post post' : α → Prop} {postf : β → Prop}
  {fault fault' : BundleError → Prop}

theorem ensures_ok {a : α} (hx : x.outcome = .ok a) : x.Ensures post fault ↔ post a := by
  refine ⟨fun h => h.of_ok hx, fun h => ⟨fun ha => ?_, fun he => ?_⟩⟩
  · rwa [← Except.ok.inj (hx.symm.trans ha)]
  · simp [hx] at he

theorem ensures_error {e : BundleError} (hx : x.outcome = .error e) :
    x.Ensures post fault ↔ fault e := by
  refine ⟨fun h => h.of_error hx, fun h => ⟨fun ha => ?_, fun he => ?_⟩⟩
  · simp [hx] at ha
  · rwa [← Except.error.inj (hx.symm.trans he)]

instance [DecidablePred post] [DecidablePred fault] : Decidable (x.Ensures post fault) :=
  match hx : x.outcome with
  | .ok _ => decidable_of_iff _ (ensures_ok hx).symm
  | .error _ => decidable_of_iff _ (ensures_error hx).symm

@[simp] theorem ensures_pure {a : α} : (pure a : Logged α).Ensures post fault ↔ post a :=
  ensures_ok rfl

@[simp] theorem ensures_fail {e : BundleError} :
    (fail e : Logged α).Ensures post fault ↔ fault e := ensures_error rfl

theorem Ensures.exists_ok (h : x.Ensures post fun _ => False) :
    ∃ a, x.outcome = .ok a ∧ post a := by
  cases hx : x.outcome with
  | ok a => exact ⟨a, rfl, h.of_ok hx⟩
  | error e => exact (h.of_error hx).elim

theorem Ensures.exists_error (h : x.Ensures (fun _ => False) fault) :
    ∃ e, x.outcome = .error e ∧ fault e := by
  cases hx : x.outcome with
  | ok a => exact (h.of_ok hx).elim
  | error e => exact ⟨e, rfl, h.of_error hx⟩

theorem Ensures.congr (h : x.Ensures post fault) (hxy : y.outcome = x.outcome) :
    y.Ensures post fault :=
  ⟨fun ha => h.of_ok (hxy.symm.trans ha), fun he => h.of_error (hxy.symm.trans he)⟩

theorem Ensures.imp (h : x.Ensures post fault) (hpost : ∀ a, post a → post' a)
    (hfault : ∀ e, fault e → fault' e) : x.Ensures post' fault' :=
  ⟨fun ha => hpost _ (h.of_ok ha), fun he => hfault _ (h.of_error he)⟩

theorem Ensures.bind (hx : x.Ensures post fault)
    (hf : ∀ a, x.outcome = .ok a → post a → (f a).Ensures postf fault) :
    (x >>= f).Ensures postf fault := by
  refine ⟨fun hb => ?_, fun he => ?_⟩
  · obtain ⟨a, ha, hb⟩ := outcome_bind_ok.mp hb
    exact (hf a ha (hx.of_ok ha)).of_ok hb
  · rcases outcome_bind_error.mp he with he | ⟨a, ha, he⟩
    · exact hx.of_error he
    · exact (hf a ha (hx.of_ok ha)).of_error he

@[simp] theorem ensures_tell_bind {event : Event} {f : Unit → Logged β} :
    (tell event >>= f).Ensures postf fault ↔ (f ()).Ensures postf fault :=
  ⟨fun h => h.congr rfl, fun h => h.congr rfl⟩

@[simp] theorem ensures_tellAll_bind {events : List Event} {f : Unit → Logged β} :
    (tellAll events >>= f).Ensures postf fault ↔ (f ()).Ensures postf fault :=
  ⟨fun h => h.congr rfl, fun h => h.congr rfl⟩

end

end Logged
end ScriptBundle
