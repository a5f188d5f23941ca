import Referral.Proofs.Courses
import Referral.Proofs.Demotion
import Referral.Proofs.SoundLog

/-!
# What becomes of failure records

A record that is stored stays, and no request changes anything in it but the count of attempts and
the mark that it is resolved, which only a retry of it sets. Every record of an effect is about an
event of the log.
-/

namespace Referral

/-! ## Records later on -/

/-- What a record may have become: it was tried again perhaps, and it is resolved only if it was, or
if it was not spared. -/
structure Failure.Still (spared : FailureId → Prop) (f f' : Failure) : Prop where
  same : f' = { f with attempts := f'.attempts, resolved := f'.resolved }
  resolved : spared f.id → f'.resolved = f.resolved

namespace Failure.Still

variable {spared spared' : FailureId → Prop} {f f' f'' : Failure}

theorem refl (f : Failure) : f.Still spared f := ⟨rfl, fun _ => rfl⟩

theorem trans (h : f.Still spared f') (h' : f'.Still spared f'') : f.Still spared f'' := by
  have hid : f'.id = f.id := by rw [h.same]
  refine ⟨?_, fun hf => (h'.resolved (hid ▸ hf)).trans (h.resolved hf)⟩
  rw [h'.same, h.same]

theorem mono (h : f.Still spared f') (hspared : ∀ id, spared' id → spared id) :
    f.Still spared' f' := ⟨h.same, fun hf => h.resolved (hspared _ hf)⟩

theorem attempt (f : Failure) : f.Still spared { f with attempts := f.attempts + 1 } :=
  ⟨rfl, fun _ => rfl⟩

theorem resolve (h : ¬ spared f.id) : f.Still spared { f with resolved := true } :=
  ⟨rfl, fun hf => (h hf).elim⟩

end Failure.Still

/-- A store may come later than another, and its records with it: what is not spared may be
resolved. -/
structure Store.Amends (spared : FailureId → Prop) (s s' : Store) : Prop where
  later : s.Later s'
  records : ∀ f ∈ s.failures, ∃ f' ∈ s'.failures, f.Still spared f'

namespace Store

variable {spared : FailureId → Prop} {s s' s'' : Store} {u : WorkUnit} {now : Instant}

namespace Amends

theorem of_failures_eq (h : s.Later s') (hfailures : s'.failures = s.failures) :
    s.Amends spared s' := ⟨h, fun f hf => ⟨f, hfailures ▸ hf, .refl f⟩⟩

theorem refl (s : Store) : s.Amends spared s := of_failures_eq (.refl s) rfl

theorem trans (h : s.Amends spared s') (h' : s'.Amends spared s'') : s.Amends spared s'' := by
  refine ⟨h.later.trans h'.later, fun f hf => ?_⟩
  obtain ⟨f', hf', hstill⟩ := h.records f hf
  obtain ⟨f'', hf'', hstill'⟩ := h'.records f' hf'
  exact ⟨f'', hf'', hstill.trans hstill'⟩

end Amends

theorem modifyFirst_append {α : Type} {p : α → Bool} (f : α → α) {as : List α} (bs : List α)
    (h : as.any p = true) : modifyFirst p f (as ++ bs) = modifyFirst p f as ++ bs := by
  induction as with
  | nil => cases h
  | cons a as ih =>
    rw [List.cons_append, modifyFirst, modifyFirst]
    by_cases hp : p a = true
    · simp only [hp, if_true, List.cons_append]
    · have hrest : as.any p = true := by simpa [hp] using h
      simp only [hp, ih hrest]
      rfl

theorem exists_still_modifyFirst {p : Failure → Bool} {change : Failure → Failure}
    (hchange : ∀ f, p f = true → f.Still spared (change f)) (fs : List Failure) :
    ∀ f ∈ fs, ∃ f' ∈ modifyFirst p change fs, f.Still spared f' := by
  induction fs with
  | nil => exact List.forall_mem_nil _
  | cons g fs ih =>
    rw [modifyFirst, List.forall_mem_cons]
    by_cases hp : p g = true
    · rw [if_pos hp]
      exact ⟨⟨_, List.mem_cons_self, hchange g hp⟩,
        fun f hf => ⟨f, List.mem_cons_of_mem _ hf, .refl f⟩⟩
    · rw [if_neg hp]
      refine ⟨⟨g, List.mem_cons_self, .refl g⟩, fun f hf => ?_⟩
      obtain ⟨f', hf', hstill⟩ := ih f hf
      exact ⟨f', List.mem_cons_of_mem _ hf', hstill⟩

theorem any_modifyFirst {change : Failure → Failure} (hid : ∀ f, (change f).id = f.id)
    (id id' : FailureId) (fs : List Failure) :
    (modifyFirst (·.id = id) change fs).any (·.id = id') = fs.any (·.id = id') := by
  induction fs with
  | nil => rfl
  | cons f fs ih =>
    rw [modifyFirst]
    split
    · simp [hid]
    · simp [ih]

/-- Marks on records of a store leave alone what comes after these. -/
theorem exists_still_marked (spared : FailureId → Prop) (change : Failure → Failure)
    (hid : ∀ f, (change f).id = f.id) {ids : List FailureId}
    (hchange : ∀ f : Failure, f.id ∈ ids → f.Still spared (change f))
    {old new : List Failure} (hids : ∀ id ∈ ids, old.any (·.id = id) = true) {s : Store}
    (hs : s.failures = old ++ new) :
    ∃ old', (ids.foldl (fun s id => s.changeFailure id change) s).failures = old' ++ new ∧
      (∀ id, old'.any (·.id = id) = old.any (·.id = id)) ∧
      ∀ f ∈ old, ∃ f' ∈ old', f.Still spared f' := by
  induction ids generalizing s old with
  | nil => exact ⟨old, hs, fun _ => rfl, fun f hf => ⟨f, hf, .refl f⟩⟩
  | cons id ids ih =>
    rw [List.forall_mem_cons] at hids
    have hfirst : (s.changeFailure id change).failures =
        modifyFirst (·.id = id) change old ++ new := by
      rw [changeFailure, hs]
      exact modifyFirst_append _ _ hids.1
    have hany := fun id' => any_modifyFirst hid id id' old
    obtain ⟨old', hfailures, hany', hstill⟩ := ih (fun f hf => hchange f (.tail _ hf))
      (fun id' hid' => (hany id').trans (hids.2 id' hid')) hfirst
    refine ⟨old', hfailures, fun id' => (hany' id').trans (hany id'), fun f hf => ?_⟩
    have hone : ∀ g : Failure, decide (g.id = id) = true → g.Still spared (change g) :=
      fun g hg => hchange g (List.mem_cons.mpr (.inl (of_decide_eq_true hg)))
    obtain ⟨f', hf', hfirst⟩ := exists_still_modifyFirst hone old f hf
    obtain ⟨f'', hf'', hrest⟩ := hstill f' hf'
    exact ⟨f'', hf'', hfirst.trans hrest⟩

/-- A unit that passes the checks marks only records that were there, and its own are added as they
are. -/
theorem failures_write_of_check (hcheck : s.check u = .ok ()) (book : Book) (now : Instant) :
    ∃ old, (s.write u book now).failures = old ++ u.failures ∧
      ∀ f ∈ s.failures, ∃ f' ∈ old, f.Still (· ∉ u.resolved) f' := by
  have hknown : ∀ id ∈ u.resolved ++ u.attempted, s.failures.any (·.id = id) = true := by
    unfold check at hcheck
    split at hcheck
    · cases hcheck
    split at hcheck
    · cases hcheck
    split at hcheck
    · cases hcheck
    · rename_i hnone
      intro id hid
      simpa using List.find?_eq_none.mp hnone id hid
  rw [List.forall_mem_append] at hknown
  have hmarks : ∀ added : Store, added.failures = s.failures ++ u.failures →
      ∃ old, (u.attempted.foldl
        (fun s id => s.changeFailure id fun f => { f with attempts := f.attempts + 1 })
        (u.resolved.foldl (fun s id => s.changeFailure id fun f => { f with resolved := true })
          added)).failures = old ++ u.failures ∧
        ∀ f ∈ s.failures, ∃ f' ∈ old, f.Still (· ∉ u.resolved) f' := by
    intro added hadded
    obtain ⟨old, hold, hany, hresolved⟩ := exists_still_marked (· ∉ u.resolved)
      (fun f => { f with resolved := true }) (fun _ => rfl) (fun f hf => .resolve (not_not.mpr hf))
      hknown.1 hadded
    obtain ⟨old', hold', -, hattempted⟩ := exists_still_marked (· ∉ u.resolved)
      (fun f => { f with attempts := f.attempts + 1 }) (fun _ => rfl) (fun f _ => .attempt f)
      (fun id hid => (hany id).trans (hknown.2 id hid)) hold
    refine ⟨old', hold', fun f hf => ?_⟩
    obtain ⟨f', hf', hstill⟩ := hresolved f hf
    obtain ⟨f'', hf'', hstill'⟩ := hattempted f' hf'
    exact ⟨f'', hf'', hstill.trans hstill'⟩
  refine hmarks _ (congrArg (· ++ u.failures) ?_)
  rw [foldl_frame failures (by intros; rfl)]
  exact foldl_frame failures (by intros; rfl) u.events _

/-- A commit resolves no record but those that its unit names. -/
theorem Amends.commit (hresolved : ∀ id ∈ u.resolved, ¬ spared id) (now : Instant) :
    s.Amends spared (s.commit u now).2 := by
  refine ⟨.commit s u now, fun f hf => ?_⟩
  rcases s.commit_store u now with ⟨n, hstore⟩ | ⟨hcheck, book, -, hstore⟩
  · exact ⟨f, by rwa [hstore], .refl f⟩
  · obtain ⟨old, hfailures, hstill⟩ := failures_write_of_check hcheck book now
    obtain ⟨f', hf', hsame⟩ := hstill f hf
    rw [hstore, hfailures]
    exact ⟨f', List.mem_append_left _ hf', hsame.mono fun id hid hmem => hresolved id hmem hid⟩

/-- A commit that is accepted adds the records of its unit as they are. -/
theorem mem_failures_of_commit {receipt : Receipt} (h : (s.commit u now).1 = .ok receipt)
    {f : Failure} (hf : f ∈ u.failures) : f ∈ (s.commit u now).2.failures := by
  have hcommit : s.commit u now = (.ok receipt, (s.commit u now).2) := Prod.ext h rfl
  obtain ⟨-, hcheck, book, -, hstore⟩ := commit_of_ok hcommit
  obtain ⟨old, hfailures, -⟩ := failures_write_of_check hcheck book now
  rw [hstore, hfailures]
  exact List.mem_append_right _ hf

end Store

/-! ## What records are about -/

/-- The record of an effect is about one of these events, and no record is of a switch made by
hand. -/
structure Failure.CitedIn (f : Failure) (es : List Event) : Prop where
  origin : f.origin ≠ .manualSwitch
  event : f.origin = .effect →
    ∃ e ∈ es, f.event = some e.id ∧ (⟨f.program, f.promoter⟩ : PromoterKey) = e.promoterKey

/-- The records and moves of a unit of work are about its events, or others that are known. -/
structure WorkUnit.Cites (known : List Event) (u : WorkUnit) : Prop where
  failures : ∀ f ∈ u.failures, f.CitedIn (known ++ u.events)
  transitions : ∀ t ∈ u.transitions, ∃ e ∈ known ++ u.events,
    t.event = some e.id ∧ t.transition.promoterKey = e.promoterKey

/-- The records of a store are about the events of its log. -/
def Store.Cites (s : Store) : Prop := ∀ f ∈ s.failures, f.CitedIn s.facts

theorem Failure.CitedIn.mono {f : Failure} {es es' : List Event} (hf : f.CitedIn es)
    (h : es ⊆ es') : f.CitedIn es' :=
  ⟨hf.origin, fun heffect => (hf.event heffect).imp fun _ he => ⟨h he.1, he.2⟩⟩

namespace WorkUnit.Cites

variable {known known' : List Event} {u u' : WorkUnit}

theorem start (known : List Event) (c : Context) : (WorkUnit.start c).Cites known :=
  ⟨List.forall_mem_nil _, List.forall_mem_nil _⟩

theorem congr (h : u.Cites known) (hknown : known ++ u.events ⊆ known' ++ u'.events)
    (hfailures : u'.failures = u.failures) (htransitions : u'.transitions = u.transitions) :
    u'.Cites known' := by
  refine ⟨fun f hf => (h.failures f (hfailures ▸ hf)).mono hknown, fun t ht => ?_⟩
  exact (h.transitions t (htransitions ▸ ht)).imp fun _ he => ⟨hknown he.1, he.2⟩

theorem mono (h : u.Cites known) (hknown : known ⊆ known') : u.Cites known' :=
  h.congr (List.append_subset.mpr ⟨List.subset_append_of_subset_left _ hknown,
    List.subset_append_right _ _⟩) rfl rfl

theorem recordFailure (h : u.Cites known) {f : Failure} (hf : f.CitedIn (known ++ u.events)) :
    (u.recordFailure f).Cites known := by
  refine ⟨fun f' hf' => ?_, h.transitions⟩
  rcases List.mem_append.mp hf' with hf' | hf'
  · exact h.failures f' hf'
  · rw [List.mem_singleton.mp hf']
    exact hf

end WorkUnit.Cites

namespace Staging

variable {config : Config} {e : Event} {depth : Depth} {allowed : RuleId → Effect → Prop}
  {s s' : Staging} {new known : List Event}

theorem Does.cites (h : s.Does config e depth allowed new s')
    (hs : e ∈ known ++ s.unit.events ∧ s.unit.Cites known) :
    e ∈ known ++ s'.unit.events ∧ s'.unit.Cites known := by
  obtain ⟨he, hcites⟩ := hs
  cases h with
  | mark => exact ⟨he, hcites.congr (List.Subset.refl _) rfl rfl⟩
  | permit hpermit =>
    obtain ⟨held, permits, rfl⟩ := ensurePermit?_frame hpermit
    exact ⟨he, hcites.congr (List.Subset.refl _) rfl rfl⟩
  | reward => exact ⟨he, hcites.congr (List.Subset.refl _) rfl rfl⟩
  | move =>
    refine ⟨he, hcites.failures, fun t ht => ?_⟩
    rcases List.mem_append.mp ht with ht | ht
    · exact hcites.transitions t ht
    · rw [List.mem_singleton.mp ht]
      exact ⟨e, he, rfl, rfl⟩
  | refuse =>
    exact ⟨he, hcites.recordFailure ⟨by simp [Failure.ofError], fun _ => ⟨e, he, rfl, rfl⟩⟩⟩
  | fail => exact ⟨he, hcites.recordFailure ⟨by simp [Failure.ofError], by simp [Failure.ofError]⟩⟩

theorem Handles.cites (h : s.Handles config e depth allowed new s')
    (he : e ∈ known ++ s.unit.events) (hs : s.unit.Cites known) : s'.unit.Cites known :=
  (h.keeps' (I := fun s => e ∈ known ++ s.unit.events ∧ s.unit.Cites known)
    (fun step hs => step.cites hs) ⟨he, hs⟩).2

theorem Enters.cites (h : s.Enters e depth s') (hs : s.unit.Cites known) :
    e ∈ known ++ s'.unit.events ∧ s'.unit.Cites known := by
  have hstaged : e ∈ known ++ (s.unit.events ++ [e]) := by simp
  have hmore : known ++ s.unit.events ⊆ known ++ (s.unit.events ++ [e]) := by simp
  cases h with
  | counted => exact ⟨hstaged, hs.congr hmore rfl rfl⟩
  | uncounted =>
    have hentered : ({ s.unit with events := s.unit.events ++ [e] } : WorkUnit).Cites known :=
      hs.congr hmore rfl rfl
    exact ⟨hstaged, hentered.recordFailure ⟨by simp [Failure.ofError], by simp [Failure.ofError]⟩⟩

theorem Takes.cites (h : s.Takes config e depth new s') (hs : s.unit.Cites known) :
    s'.unit.Cites known := by
  cases h with
  | reject => exact hs.recordFailure ⟨by simp [Failure.ofError], by simp [Failure.ofError]⟩
  | skip => exact hs
  | handle _ _ enters handles =>
    obtain ⟨he, hentered⟩ := enters.cites hs
    exact handles.cites he hentered

theorem cites_demoteTransitions (hs : s.unit.Cites known) (error : Error) (now : Instant) :
    (s.demoteTransitions error now).unit.Cites known := by
  obtain ⟨records, ids, hframe, -, hrecords⟩ := s.demoteTransitions_frame error now
  rw [hframe]
  refine ⟨fun f hf => ?_, List.forall_mem_nil _⟩
  rcases List.mem_append.mp hf with hf | hf
  · exact hs.failures f hf
  · obtain ⟨t, ht, id, rfl⟩ := hrecords.exists_move hf
    obtain ⟨e, he, hevent, hkey⟩ := hs.transitions t ht
    exact ⟨by simp [demoted, Failure.ofError, hevent], fun _ => ⟨e, he, hevent, hkey⟩⟩

end Staging

/-- What a dispatch stages is about known events if what was staged before is. -/
theorem Cascade.cites_dispatchAt {s : Service} (hbuiltIn : s.extra = []) {known : List Event}
    (depth : Depth) (e : Event) {staging : Staging} (calls : List CallRecord)
    (h : staging.unit.Cites known) :
    (s.dispatcher.dispatchAt depth e staging calls).staging.unit.Cites known :=
  run_keeps (I := fun c _ => c.staging.unit.Cites known)
    (fun c depth e _ h => (takes_handleEvent hbuiltIn c depth e).cites h) h

/-! ## What stays unresolved -/

namespace Staging

variable {config : Config} {e : Event} {depth : Depth} {allowed : RuleId → Effect → Prop}
  {s s' : Staging} {new : List Event}

theorem Does.resolved_eq (h : s.Does config e depth allowed new s') :
    s'.unit.resolved = s.unit.resolved := by
  cases h with
  | permit hpermit =>
    obtain ⟨held, permits, rfl⟩ := ensurePermit?_frame hpermit
    rfl
  | _ => rfl

theorem Handles.resolved_eq (h : s.Handles config e depth allowed new s') :
    s'.unit.resolved = s.unit.resolved :=
  h.keeps' (I := fun s' => s'.unit.resolved = s.unit.resolved)
    (fun step h => step.resolved_eq.trans h) rfl

theorem Takes.resolved_eq (h : s.Takes config e depth new s') :
    s'.unit.resolved = s.unit.resolved := by
  cases h with
  | reject => rfl
  | skip => rfl
  | handle _ _ enters handles => cases enters <;> exact handles.resolved_eq

theorem resolved_demoteTransitions (s : Staging) (error : Error) (now : Instant) :
    (s.demoteTransitions error now).unit.resolved = s.unit.resolved := by
  obtain ⟨records, ids, hframe, -⟩ := s.demoteTransitions_frame error now
  rw [hframe]

end Staging

/-- A dispatch resolves no record. -/
theorem Cascade.resolved_dispatchAt {s : Service} (hbuiltIn : s.extra = []) (depth : Depth)
    (e : Event) (staging : Staging) (calls : List CallRecord) :
    (s.dispatcher.dispatchAt depth e staging calls).staging.unit.resolved =
      staging.unit.resolved :=
  run_keeps (I := fun c _ => c.staging.unit.resolved = staging.unit.resolved)
    (fun c depth e _ h => (takes_handleEvent hbuiltIn c depth e).resolved_eq.trans h) rfl

/-! ## Requests -/

theorem Store.Cites.commit {s : Store} {u : WorkUnit} (hs : s.Cites)
    (hu : ∀ f ∈ u.failures, f.CitedIn (s.facts ++ u.events)) (now : Instant) :
    (s.commit u now).2.Cites := by
  rcases s.commit_store u now with ⟨n, hstore⟩ | ⟨hcheck, book, -, hstore⟩
  · rw [hstore]
    exact hs
  · rw [hstore]
    intro f' hf'
    let view : Failure → Origin × Option EventId × PromoterKey := fun f =>
      (f.origin, f.event, ⟨f.program, f.promoter⟩)
    have hviews := s.map_failures_write u book now view (fun _ => rfl) fun _ _ => rfl
    obtain ⟨f, hf, hview⟩ := List.mem_map.mp (hviews ▸ List.mem_map_of_mem hf')
    obtain ⟨horigin, hevent, hkey⟩ : f.origin = f'.origin ∧ f.event = f'.event ∧
        (⟨f.program, f.promoter⟩ : PromoterKey) = ⟨f'.program, f'.promoter⟩ := by
      simpa [view] using hview
    have hcited : f.CitedIn (s.facts ++ u.events) := by
      rcases List.mem_append.mp hf with hf | hf
      · exact (hs f hf).mono (List.subset_append_left _ _)
      · exact hu f hf
    rw [facts_write]
    refine ⟨horigin ▸ hcited.origin, fun heffect => ?_⟩
    rw [← hevent, ← hkey]
    exact hcited.event (horigin.trans heffect)

namespace World

variable {spared : FailureId → Prop} {w w' : World} {u : WorkUnit}

/-- The log is sound, and records are about its events. -/
def Accountable (w : World) : Prop := w.store.Sound ∧ w.store.Cites

/-- Nothing is lost, and records that are spared are resolved only if they were. -/
structure Spares (spared : FailureId → Prop) (w w' : World) : Prop
    extends Follows Accountable w w' where
  amends : w.store.Amends spared w'.store

theorem Spares.of_failures_eq (hlater : w.store.Later w'.store)
    (hgrows : w.store.Grows w'.store) (hids : w.ids.next ≤ w'.ids.next)
    (hfailures : w'.store.failures = w.store.failures) : Spares spared w w' := by
  refine ⟨⟨hlater, fun hw => ⟨hw.1.grows hgrows, fun f hf => ?_⟩, hids⟩,
    .of_failures_eq hlater hfailures⟩
  exact (hw.2 f (hfailures ▸ hf)).mono hlater.facts.subset

theorem Spares.commit (hbuilt : u.Built)
    (hcites : ∀ f ∈ u.failures, f.CitedIn (w.store.facts ++ u.events))
    (hresolved : ∀ id ∈ u.resolved, ¬ spared id) : Spares spared w (w.perform (.commit u)).2 :=
  ⟨⟨.commit _ _ _, fun hw => ⟨hw.1.grows (.commit hbuilt w.now), hw.2.commit hcites w.now⟩,
    le_rfl⟩, .commit hresolved w.now⟩

end World

namespace Service

open World (Accountable Spares)

variable {s : Service}

/-- With the built-in handlers alone, no request resolves a record that is spared, unless it is a
retry of that record. -/
theorem upholds_spares (hbuiltIn : s.extra = []) (spared : FailureId → Prop) :
    s.Upholds (fun r => ∀ id, r = .retry id → ¬ spared id) Accountable
      (fun w u _ => u.Built ∧ u.Cites w.store.facts ∧ ∀ id ∈ u.resolved, ¬ spared id)
      (World.Follows Accountable) (Spares spared) where
  rely := World.rely_follows _
  follows h := h
  within h := h.toFollows
  numbered h := h.1.numbered
  aside h hids := .of_failures_eq (h ▸ .refl _) (.alter (by rw [h]) (by rw [h])) hids (by rw [h])
  disturb _ _ _ := .of_failures_eq (.of_log_eq rfl rfl) (.alter rfl rfl) le_rfl rfl
  putRule _ h := by
    obtain ⟨-, rules, rfl, -⟩ := Store.putRule_eq_ok h
    exact .of_failures_eq (.of_log_eq rfl rfl) (.alter rfl rfl) le_rfl rfl
  putCircle _ h := by
    rw [Store.putCircle_eq_ok h]
    exact .of_failures_eq (.of_log_eq rfl rfl) (.alter rfl rfl) le_rfl rfl
  assignCircle h := by
    rw [(Store.assignCircle_eq_ok h).2]
    exact .of_failures_eq (.of_log_eq rfl rfl) (.alter rfl rfl) le_rfl rfl
  swap _ h := by
    obtain ⟨book, -, -, rfl⟩ := Store.replaceTotals_eq_ok.mp h
    exact .of_failures_eq (.of_log_eq rfl rfl) (.alter rfl rfl) le_rfl rfl
  later h _ hu := ⟨hu.1, hu.2.1.mono h.later.facts.subset, hu.2.2⟩
  start _ _ := ⟨WorkUnit.built_start _, .start _ _, List.forall_mem_nil _⟩
  enter _ _ _ := ⟨WorkUnit.built_start _, .start _ _, List.forall_mem_nil _⟩
  dispatch {w u c cs staging} _ hu hstaging := by
    subst hstaging
    have hedits := Dispatcher.edits_dispatchAt (fair_of_builtIn hbuiltIn).handlers c.depth c.event
      ⟨u, w.permits, w.ids, w.now⟩ w.calls
    refine ⟨hedits.ids, hu.1.edits hedits.unit, Cascade.cites_dispatchAt hbuiltIn _ _ _ hu.2.1, ?_⟩
    rw [Cascade.resolved_dispatchAt hbuiltIn]
    exact hu.2.2
  fire {w u f e rule effect answer staging} _ _ hsource _ hu hfire := by
    obtain ⟨w₁, -, hfollows, hsource⟩ := hsource
    have he := hfollows.later.facts.subset hsource.mem_facts
    have hhandles := (⟨u, w.permits, w.ids, w.now⟩ : Staging).handles_fire s.config e f.depth rule
      effect (fun _ _ => True) trivial
    rw [hfire] at hhandles
    refine ⟨hhandles.ids_le, fun _ _ => ⟨hu.1.edits hhandles.edits.unit,
      hhandles.cites (List.mem_append_left _ he) hu.2.1, ?_⟩⟩
    rw [hhandles.resolved_eq]
    exact hu.2.2
  call {w u name position h f e calls answer staging} _ hsource hu hname hfind hreact := by
    obtain ⟨w₁, -, hfollows, hsource⟩ := hsource
    have he := hfollows.later.facts.subset hsource.mem_facts
    rw [eq_rulesHandler hbuiltIn hname hfind] at hreact
    have hhandles := (⟨u, w.permits, w.ids, w.now⟩ : Staging).handles_react s.config calls
      ⟨e, f.depth⟩
    rw [hreact] at hhandles
    refine ⟨hhandles.ids_le, fun _ _ => ⟨hu.1.edits hhandles.edits.unit,
      hhandles.cites (List.mem_append_left _ he) hu.2.1, ?_⟩⟩
    rw [hhandles.resolved_eq]
    exact hu.2.2
  demote {w u error staging} _ hu hstaging := by
    subst hstaging
    have hedits := (⟨u, w.permits, w.ids, w.now⟩ : Staging).edits_demoteTransitions error
    refine ⟨hedits.ids, hu.1.edits hedits.unit, Staging.cites_demoteTransitions hu.2.1 _ _, ?_⟩
    rw [Staging.resolved_demoteTransitions]
    exact hu.2.2
  resolve {w u failure} hadmitted hu := by
    refine ⟨hu.1.edits (.single (.resolveFailure failure)), ⟨hu.2.1.failures, hu.2.1.transitions⟩,
      fun id hid => ?_⟩
    rcases List.mem_append.mp hid with hid | hid
    · exact hu.2.2 id hid
    · exact List.mem_singleton.mp hid ▸ hadmitted failure rfl
  attempt failure hu := ⟨hu.1.edits (.single (.recordAttempt failure)),
    ⟨hu.2.1.failures, hu.2.1.transitions⟩, hu.2.2⟩
  move {_ _ k _ _ t} _ hu := .commit
    (hu.1.edits (.head (.holdPermit k) (.single (.stageTransition ⟨t, none, none, 0⟩))))
    hu.2.1.failures hu.2.2
  commit hu := .commit hu.1 hu.2.1.failures hu.2.2

end Service

end Referral
