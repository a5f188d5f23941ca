import Referral.Proofs.Renaming

/-!
# Dispatches and the permits that are out

A dispatch asks for no permit but that of the promoter of its event. If that is not out, the
dispatch comes out the same whatever other permits are out and whatever calls handlers had before,
and of all permits it takes at most that one.
-/

namespace Referral

theorem Permits.mem_releaseAll {p : Permits} {ks : List PromoterKey} {k : PromoterKey} :
    k ∈ (p.releaseAll ks).out ↔ k ∉ ks ∧ k ∈ p.out := by
  induction ks generalizing p with
  | nil => simp [releaseAll]
  | cons j ks ih =>
    have hstep := ih (p := p.release j)
    rw [mem_release] at hstep
    rw [List.mem_cons, not_or]
    exact hstep.trans (by tauto)

/-! ## The permits that a dispatch takes -/

namespace Staging

variable {config : Config} {e : Event} {depth : Depth} {allowed : RuleId → Effect → Prop}
  {s s' s'' : Staging} {out : List Event}

/-- The unit of work holds all permits that came out on the way, and no permit was given back. -/
structure Acquires (s s' : Staging) : Prop where
  kept : ∀ k ∈ s.permits.out, k ∈ s'.permits.out
  mem : ∀ k, k ∈ s'.unit.permits ↔
    k ∈ s.unit.permits ∨ k ∈ s'.permits.out ∧ k ∉ s.permits.out

theorem Acquires.of_eq (hunit : s'.unit.permits = s.unit.permits)
    (hpermits : s'.permits = s.permits) : s.Acquires s' where
  kept k hk := by rwa [hpermits]
  mem k := by
    rw [hunit, hpermits]
    tauto

theorem Acquires.trans (h : s.Acquires s') (h' : s'.Acquires s'') : s.Acquires s'' where
  kept k hk := h'.kept k (h.kept k hk)
  mem k := by
    have hkept := h.kept k
    have hkept' := h'.kept k
    rw [h'.mem, h.mem]
    tauto

theorem acquires_ensurePermit? {k : PromoterKey} (h : s.ensurePermit? k = some s') :
    s.Acquires s' := by
  unfold ensurePermit? at h
  split at h
  · cases h
    exact .of_eq rfl rfl
  · obtain ⟨permits, hacquire, rfl⟩ := Option.map_eq_some_iff.mp h
    obtain ⟨hout, hfree⟩ := Permits.out_acquire hacquire
    refine ⟨fun j hj => hout ▸ List.mem_cons_of_mem _ hj, fun j => ?_⟩
    simp only [WorkUnit.holdPermit, List.mem_append, hout, List.mem_cons]
    by_cases hj : j = k
    · subst hj
      tauto
    · tauto

theorem Does.acquires (h : s.Does config e depth allowed out s') : s.Acquires s' := by
  cases h with
  | permit hpermit => exact acquires_ensurePermit? hpermit
  | _ => exact .of_eq rfl rfl

theorem Handles.acquires (h : s.Handles config e depth allowed out s') : s.Acquires s' :=
  h.keeps' (I := fun s' => s.Acquires s') (fun step hs => hs.trans step.acquires) (.of_eq rfl rfl)

theorem Takes.acquires (h : s.Takes config e depth out s') : s.Acquires s' := by
  cases h with
  | reject => exact .of_eq rfl rfl
  | skip => exact .of_eq rfl rfl
  | @handle _ s₁ _ _ _ enters handles =>
    have hentered : s.Acquires s₁ := by cases enters <;> exact .of_eq rfl rfl
    exact hentered.trans handles.acquires

/-- The permits that are out are those that were out before and those that the unit holds. -/
def Draws (before : Permits) (s : Staging) : Prop :=
  ∀ k, k ∈ s.permits.out ↔ k ∈ before.out ∨ k ∈ s.unit.permits

/-- A unit that held no permit holds those that came out. -/
theorem Acquires.draws (h : s.Acquires s') (hnone : s.unit.permits = []) :
    s'.Draws s.permits := by
  intro k
  have hkept := h.kept k
  rw [h.mem, hnone]
  by_cases hk : k ∈ s.permits.out <;> simp [hk, hkept]

end Staging

/-! ## Dispatches -/

namespace Service

/-- The dispatch of an event on what is stored, while no permit is out. -/
def dispatchOn (s : Service) (store : Store) (e : Event) (ids : IdSupply) (now : Instant) :
    Cascade :=
  s.dispatcher.dispatchAt 0 e ⟨.start (store.context e.promoterKey), .empty, ids, now⟩ []

variable {s : Service} {w : World} {e : Event}

/-- A dispatch goes by nothing that is stored but what is known of the promoter. -/
theorem dispatchOn_congr {store store' : Store}
    (h : store'.context e.promoterKey = store.context e.promoterKey) (ids : IdSupply)
    (now : Instant) : s.dispatchOn store' e ids now = s.dispatchOn store e ids now := by
  rw [dispatchOn, dispatchOn, h]

/-- A dispatch for a promoter whose permit is not out. -/
theorem dispatched_eq (hbuiltIn : s.extra = []) (hfree : e.promoterKey ∉ w.permits.out)
    (now : Instant) :
    (s.dispatched w e now).staging.unit = (s.dispatchOn w.store e w.ids now).staging.unit ∧
    (s.dispatched w e now).report = (s.dispatchOn w.store e w.ids now).report := by
  let alone : World := { w with permits := .empty, calls := [] }
  have hcontext : w.store.context e.promoterKey = alone.store.context e.promoterKey := rfl
  have hnone : e.promoterKey ∉ alone.permits.out := List.not_mem_nil
  have hids : alone.ids.Renames .same 0 (s.dispatched alone e now).staging.ids.next w.ids :=
    ⟨by simp [alone], fun _ _ => rfl⟩
  have hsame := renames_dispatched hbuiltIn e.rename_same hcontext hnone hfree hids
  exact ⟨hsame.staging.unit.eq, hsame.report.eq⟩

theorem acquires_dispatchAt (hbuiltIn : s.extra = []) (depth : Depth) (e : Event)
    (staging : Staging) (calls : List CallRecord) :
    staging.Acquires (s.dispatcher.dispatchAt depth e staging calls).staging :=
  Cascade.run_keeps (I := fun c _ => staging.Acquires c.staging)
    (fun c depth e _ h => h.trans (Cascade.takes_handleEvent hbuiltIn c depth e).acquires)
    (.of_eq rfl rfl)

/-- The permits that are out after a dispatch. -/
theorem draws_dispatched (hbuiltIn : s.extra = []) (w : World) (e : Event) (now : Instant) :
    (s.dispatched w e now).staging.Draws w.permits :=
  (acquires_dispatchAt hbuiltIn 0 e ⟨_, w.permits, w.ids, now⟩ w.calls).draws rfl

end Service

end Referral
