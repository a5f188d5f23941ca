import Referral.Proofs.InForce
import Referral.Proofs.Seeding
import Referral.Proofs.SoundLog

/-!
# Circles and memberships

Circles are told apart by their identifiers, and a program has one default circle at most. A circle
is never taken away, but putting another one under its identifier replaces it, whatever program the
new one is of and whoever is in the old one. So every promoter is in some circle that is stored, and
one of that identifier was put in the program of the promoter. It is still of this program, unless
circles of different programs were put under one identifier.
-/

namespace Referral

/-! ## What is known of circles -/

namespace Store

/-- The default circles of a program. -/
def defaults (s : Store) (p : ProgramId) : List Circle :=
  s.circles.filter fun c => c.program = p && c.isDefault

/-- A circle of that identifier is stored, and one was put in the program. -/
structure Knows (put : Circle → Prop) (s : Store) (p : ProgramId) (id : CircleId) : Prop where
  put : ∃ c, put c ∧ c.isOf p id = true
  stored : ∃ c ∈ s.circles, c.id = id

/-- Circles are told apart by their identifiers, were all put, and no two of a program are default
circles; every promoter is in a known one. -/
structure Orderly (put : Circle → Prop) (s : Store) : Prop where
  distinct : (s.circles.map (·.id)).Nodup
  oneDefault : ∀ p, (s.defaults p).length ≤ 1
  source : ∀ c ∈ s.circles, put c
  members : ∀ k m, s.memberships.get? k = some m →
    m.program = k.program ∧ m.promoter = k.promoter ∧ s.Knows put m.program m.circle

/-- No circle is taken away, though its identifier may come to stand for another one. -/
def CirclesStay (s s' : Store) : Prop := ∀ c ∈ s.circles, ∃ c' ∈ s'.circles, c'.id = c.id

variable {put : Circle → Prop} {s s' : Store} {p : ProgramId} {id : CircleId} {c : Circle}

theorem CirclesStay.of_eq (h : s'.circles = s.circles) : s.CirclesStay s' :=
  fun c hc => ⟨c, h ▸ hc, rfl⟩

theorem CirclesStay.trans {s₁ s₂ s₃ : Store} (h : s₁.CirclesStay s₂) (h' : s₂.CirclesStay s₃) :
    s₁.CirclesStay s₃ := by
  intro c hc
  obtain ⟨c', hc', hid⟩ := h c hc
  obtain ⟨c'', hc'', hid'⟩ := h' c' hc'
  exact ⟨c'', hc'', hid'.trans hid⟩

theorem Knows.mono (h : s.Knows put p id) (hstay : s.CirclesStay s') : s'.Knows put p id := by
  obtain ⟨c, hc, hid⟩ := h.stored
  obtain ⟨c', hc', hid'⟩ := hstay c hc
  exact ⟨h.put, c', hc', hid'.trans hid⟩

/-- A circle that is stored is known in its program. -/
theorem Orderly.knows (h : s.Orderly put) (hc : c ∈ s.circles) : s.Knows put c.program c.id :=
  ⟨⟨c, h.source c hc, by simp [Circle.isOf]⟩, c, hc, rfl⟩

theorem orderly_empty : Store.empty.Orderly put where
  distinct := List.nodup_nil
  oneDefault _ := Nat.zero_le 1
  source := List.forall_mem_nil _
  members _ _ h := by cases h

/-! ### Changes of the store -/

theorem putCircle_stay (h : s.putCircle c = .ok s') : s.CirclesStay s' := by
  rw [putCircle_eq_ok h]
  intro x hx
  by_cases hid : x.id = c.id
  · exact ⟨c, by simp, hid.symm⟩
  · exact ⟨x, by simp [hx, hid], rfl⟩

/-- No second default circle is put in a program. -/
theorem eq_of_putCircle_default (h : s.putCircle c = .ok s') (hc : c.isDefault = true) :
    ∀ x ∈ s.defaults c.program, x.id = c.id := by
  unfold putCircle at h
  split at h
  · cases h
  · rename_i hguard
    intro x hx
    simp only [defaults, List.mem_filter, Bool.and_eq_true, decide_eq_true_eq] at hx
    by_contra hne
    simp only [hc, Bool.true_and, Bool.not_eq_true, List.any_eq_false] at hguard
    have hother := hguard x hx.1
    simp [hx.2.1, hx.2.2, hne] at hother

theorem Orderly.putCircle (h : s.Orderly put) (hput : put c) (hstore : s.putCircle c = .ok s') :
    s'.Orderly put := by
  have hstay := putCircle_stay hstore
  have hdefault := eq_of_putCircle_default hstore
  obtain rfl := putCircle_eq_ok hstore
  refine ⟨?_, fun p => ?_, ?_, fun k m hm => ?_⟩
  · rw [List.map_append, List.map_singleton]
    have hkept : ((s.circles.filter (·.id ≠ c.id)).map (·.id)).Nodup :=
      h.distinct.sublist (List.filter_sublist.map _)
    refine List.nodup_append.mpr ⟨hkept, List.nodup_singleton _, ?_⟩
    rintro _ ha _ hb rfl
    obtain ⟨x, hx, hid⟩ := List.mem_map.mp ha
    have hne : x.id ≠ c.id := by simpa using (List.mem_filter.mp hx).2
    exact hne (hid.trans (List.mem_singleton.mp hb))
  · have hkept : ((s.circles.filter (·.id ≠ c.id)).filter
        fun x => x.program = p && x.isDefault).Sublist (s.defaults p) :=
      List.filter_sublist.filter _
    rw [defaults, List.filter_append]
    by_cases hnew : (c.program = p && c.isDefault) = true
    · -- the default circles that stay are of other identifiers, so there is none
      rw [Bool.and_eq_true, decide_eq_true_eq] at hnew
      obtain ⟨rfl, hc⟩ := hnew
      have hnone : (s.circles.filter (·.id ≠ c.id)).filter
          (fun x => x.program = c.program && x.isDefault) = [] := by
        refine List.eq_nil_iff_forall_not_mem.mpr fun x hx => ?_
        have hne : x.id ≠ c.id := by
          simpa using (List.mem_filter.mp (List.mem_of_mem_filter hx)).2
        exact hne (hdefault hc x (hkept.subset hx))
      rw [hnone]
      simp [hc]
    · have hother : [c].filter (fun x => x.program = p && x.isDefault) = [] := by
        simpa using hnew
      rw [hother, List.append_nil]
      exact hkept.length_le.trans (h.oneDefault p)
  · refine List.forall_mem_append.mpr ⟨fun x hx => h.source x (List.mem_of_mem_filter hx), ?_⟩
    simpa using hput
  · obtain ⟨hprogram, hpromoter, hknown⟩ := h.members k m hm
    exact ⟨hprogram, hpromoter, hknown.mono hstay⟩

/-- Circles stay as they are, and every membership is an old one or names a known circle. -/
theorem Orderly.of_members (h : s.Orderly put) (hcircles : s'.circles = s.circles)
    (hmembers : ∀ k m, s'.memberships.get? k = some m → s.memberships.get? k = some m ∨
      m.program = k.program ∧ m.promoter = k.promoter ∧ s.Knows put m.program m.circle) :
    s'.Orderly put := by
  have hdefaults : ∀ p, s'.defaults p = s.defaults p := fun p => by
    rw [defaults, hcircles, defaults]
  refine ⟨hcircles ▸ h.distinct, fun p => hdefaults p ▸ h.oneDefault p, hcircles ▸ h.source,
    fun k m hm => ?_⟩
  obtain ⟨hprogram, hpromoter, hknown⟩ := (hmembers k m hm).elim (h.members k m) id
  exact ⟨hprogram, hpromoter, hknown.mono (.of_eq hcircles)⟩

theorem Orderly.congr (h : s.Orderly put) (hcircles : s'.circles = s.circles)
    (hmembers : s'.memberships = s.memberships) : s'.Orderly put :=
  h.of_members hcircles fun _ _ hm => .inl (hmembers ▸ hm)

theorem Orderly.assignCircle {k : PromoterKey} {now : Instant} (h : s.Orderly put)
    (hassign : s.assignCircle k id now = .ok s') : s'.Orderly put := by
  obtain ⟨hcircle, rfl⟩ := assignCircle_eq_ok hassign
  obtain ⟨c, hc, hof⟩ := List.any_eq_true.mp hcircle
  obtain ⟨rfl, hprogram⟩ : c.id = id ∧ c.program = k.program := by simpa [Circle.isOf] using hof
  refine h.of_members rfl fun k' m hm => ?_
  simp only [OrderedMap.get?_insert] at hm
  split at hm
  · rename_i hk
    cases hm
    exact .inr ⟨by rw [hk], by rw [hk], hprogram ▸ h.knows hc⟩
  · exact .inl hm

theorem Orderly.move {t : Transition} (h : s.Orderly put)
    (ht : s.Knows put t.program t.target) : (s.move t).Orderly put := by
  refine h.of_members rfl fun k m hm => ?_
  simp only [Store.move, OrderedMap.get?_insert] at hm
  split at hm
  · rename_i hk
    cases hm
    exact .inr ⟨by rw [hk]; rfl, by rw [hk]; rfl, ht⟩
  · exact .inl hm

theorem Orderly.moves {ts : List Transition} (h : s.Orderly put)
    (hts : ∀ t ∈ ts, s.Knows put t.program t.target) : (ts.foldl Store.move s).Orderly put := by
  induction ts generalizing s with
  | nil => exact h
  | cons t ts ih =>
    rw [List.forall_mem_cons] at hts
    have hstay : s.CirclesStay (s.move t) := .of_eq rfl
    exact ih (h.move hts.1) fun t' ht' => (hts.2 t' ht').mono hstay

end Store

/-! ## Units of work -/

/-- The circles that are looked up in the unit, and those that it moves promoters to, are known. -/
structure WorkUnit.Bound (known : ProgramId → CircleId → Prop) (u : WorkUnit) : Prop where
  circles : ∀ c ∈ u.context.circles, known c.program c.id
  moves : ∀ t ∈ u.moves, known t.program t.target

namespace WorkUnit

variable {known known' : ProgramId → CircleId → Prop} {u u' : WorkUnit}

theorem Bound.mono (h : u.Bound known) (hknown : ∀ p id, known p id → known' p id) :
    u.Bound known' :=
  ⟨fun c hc => hknown _ _ (h.circles c hc), fun t ht => hknown _ _ (h.moves t ht)⟩

theorem Bound.congr (h : u.Bound known) (hcircles : u'.context.circles = u.context.circles)
    (htransitions : u'.transitions = u.transitions) : u'.Bound known :=
  ⟨hcircles ▸ h.circles, fun t ht => h.moves t (by rwa [WorkUnit.moves, ← htransitions])⟩

theorem Bound.knows (h : u.Bound known) {p : ProgramId} {id : CircleId}
    (hcircle : (u.context.circles.any fun c => c.isOf p id) = true) : known p id := by
  obtain ⟨c, hc, hof⟩ := List.any_eq_true.mp hcircle
  obtain ⟨rfl, rfl⟩ : c.id = id ∧ c.program = p := by simpa [Circle.isOf] using hof
  exact h.circles c hc

theorem Bound.stageTransition (h : u.Bound known) {t : StagedTransition}
    (hcircle : (u.context.circles.any fun c => c.isOf t.transition.program t.transition.target)
      = true) : (u.stageTransition t).Bound known := by
  refine ⟨h.circles, fun t' ht' => ?_⟩
  rw [WorkUnit.moves, WorkUnit.stageTransition, List.map_append] at ht'
  rcases List.mem_append.mp ht' with hold | hnew
  · exact h.moves t' hold
  · rw [List.mem_singleton.mp hnew]
    exact h.knows hcircle

theorem bound_start {s : Store} {put : Circle → Prop} (h : s.Orderly put) (k : PromoterKey) :
    (start (s.context k)).Bound (s.Knows put) :=
  ⟨fun _ hc => h.knows (List.mem_of_mem_filter hc), List.forall_mem_nil _⟩

end WorkUnit

namespace Store

variable {put : Circle → Prop} {s : Store} {u : WorkUnit}

theorem commit_stay (s : Store) (u : WorkUnit) (now : Instant) :
    s.CirclesStay (s.commit u now).2 := by
  rcases s.commit_store u now with ⟨n, hstore⟩ | ⟨-, book, -, hstore⟩
  · rw [hstore]
    exact .of_eq rfl
  · rw [hstore]
    exact .of_eq (circles_write _ _ _ _)

theorem Orderly.commit (h : s.Orderly put) (hu : u.Bound (s.Knows put)) (now : Instant) :
    (s.commit u now).2.Orderly put := by
  rcases s.commit_store u now with ⟨n, hstore⟩ | ⟨-, book, -, hstore⟩
  · rw [hstore]
    exact h.congr rfl rfl
  · rw [hstore]
    have hcircles : (u.moves.foldl Store.move s).circles = s.circles :=
      foldl_frame circles (by intros; rfl) _ _
    exact (h.moves hu.moves).congr (by rw [circles_write, hcircles]) (memberships_write _ _ _ _)

end Store

/-! ## Handlers -/

/-- A handler that moves promoters to circles that are looked up in the unit of work, if at all. -/
structure Handler.Steers (h : Handler) : Prop where
  fair : h.Fair
  bound : ∀ known, Cascade.IsKeptBy (·.unit.Bound known) h

variable {known : ProgramId → CircleId → Prop}

namespace Staging

variable {config : Config} {e : Event} {depth : Depth} {allowed : RuleId → Effect → Prop}
  {s s' : Staging} {new : List Event}

theorem Does.bound (step : s.Does config e depth allowed new s') (h : s.unit.Bound known) :
    s'.unit.Bound known := by
  cases step with
  | permit hpermit =>
    obtain ⟨held, permits, rfl⟩ := ensurePermit?_frame hpermit
    exact h.congr rfl rfl
  | move _ hcircle => exact h.stageTransition hcircle
  | mark => exact h.congr rfl rfl
  | reward => exact h.congr rfl rfl
  | refuse => exact h.congr rfl rfl
  | fail => exact h.congr rfl rfl

theorem Handles.bound (handles : s.Handles config e depth allowed new s')
    (h : s.unit.Bound known) : s'.unit.Bound known :=
  handles.keeps' (I := (·.unit.Bound known)) Does.bound h

end Staging

theorem steers_aggregatesHandler : aggregatesHandler.Steers where
  fair := fair_aggregatesHandler
  bound _ calls call s h := by
    simp only [aggregatesHandler]
    split
    · exact h.congr rfl rfl
    · exact h

theorem steers_rulesHandler (config : Config) : (rulesHandler config).Steers where
  fair := fair_rulesHandler config
  bound _ calls call s h := (s.handles_react config calls call).bound h

/-- The handlers that scripts describe move nobody. -/
theorem Script.steers_handler (script : Script) : script.handler.Steers where
  fair := script.fair_handler
  bound _ calls call s h := by
    simp only [handler]
    split
    · rename_i r _
      cases r.response <;> exact h
    · exact h

theorem Dispatcher.bound_dispatchAt {d : Dispatcher} (hd : ∀ h ∈ d.handlers, h.Steers)
    (depth : Depth) (e : Event) (staging : Staging) (calls : List CallRecord)
    (h : staging.unit.Bound known) :
    (d.dispatchAt depth e staging calls).staging.unit.Bound known := by
  refine d.keeps_dispatchAt (P := (·.unit.Bound known)) (fun _ _ hs => hs.congr rfl rfl)
    (fun g hg => (hd g hg).bound known) (fun s e unit hunit hs => ?_) depth e staging calls h
  obtain ⟨-, rfl⟩ := WorkUnit.stageEvent?_eq_some hunit
  exact hs.congr rfl rfl

/-- A move goes to a circle of the program. -/
theorem switchTo_eq_transition {p : ProgramId} {promoter : PromoterId} {current : Option CircleId}
    {target : CircleId} {circles : List Circle} {time : Instant} {t : Transition}
    (h : switchTo p promoter current target circles time = .ok (.transition t)) :
    (circles.any fun c => c.isOf p target) = true ∧ t = ⟨p, promoter, current, target, time⟩ := by
  unfold switchTo at h
  split at h
  · cases h
  split at h
  · cases h
  · rename_i hcircle _
    cases h
    exact ⟨by simpa using hcircle, rfl⟩

/-! ## Services -/

namespace Service

variable {s : Service} {put : Circle → Prop} {w w' : World}

/-- All handlers move promoters to circles that are looked up, if at all. -/
def Steers (s : Service) : Prop := ∀ h ∈ s.extra, h.Steers

theorem Steers.handlers (hs : s.Steers) : ∀ h ∈ s.dispatcher.handlers, h.Steers := by
  intro h hmem
  rcases List.mem_cons.mp hmem with rfl | hmem
  · exact steers_aggregatesHandler
  rcases List.mem_cons.mp hmem with rfl | hmem
  · exact steers_rulesHandler s.config
  · exact hs h hmem

end Service

/-- The log is numbered, and circles are in order. -/
def World.CirclesInOrder (put : Circle → Prop) (w : World) : Prop :=
  w.store.Numbered ∧ w.store.Orderly put

/-- Circles stay in order, and none is taken away. -/
structure World.KeepsCircles (put : Circle → Prop) (w w' : World) : Prop extends
    World.Follows (World.CirclesInOrder put) w w' where
  stay : w.store.CirclesStay w'.store

namespace World

variable {put : Circle → Prop} {w w' : World}

theorem KeepsCircles.intro (hlater : w.store.Later w'.store)
    (horderly : w.store.Orderly put → w'.store.Orderly put) (hids : w.ids.next ≤ w'.ids.next)
    (hstay : w.store.CirclesStay w'.store) : KeepsCircles put w w' :=
  ⟨⟨hlater, fun h => ⟨hlater.numbered h.1, horderly h.2⟩, hids⟩, hstay⟩

theorem KeepsCircles.commit {u : WorkUnit} (hu : u.Bound (w.store.Knows put)) :
    KeepsCircles put w (w.perform (.commit u)).2 :=
  .intro (.commit _ _ _) (fun hw => hw.commit hu w.now) (le_refl _) (w.store.commit_stay u w.now)

theorem rely_keepsCircles (put : Circle → Prop) : Procedure.Rely (KeepsCircles put) where
  refl _ := .intro (.refl _) id (le_refl _) (.of_eq rfl)
  trans _ _ _ h h' := ⟨(rely_follows _).trans _ _ _ h.toFollows h'.toFollows, h.stay.trans h'.stay⟩
  later _ _ h := h.later

end World

namespace Service

open World (CirclesInOrder KeepsCircles rely_keepsCircles)

variable {s : Service} {put : Circle → Prop} {w w' : World}

/-- Whatever is asked of a service, circles stay in order, as long as those that are put are the
ones that `put` says. -/
theorem upholds_circles (hs : s.Steers) (put : Circle → Prop) :
    s.Upholds (fun r => ∀ c, r = .putCircle c → put c) (CirclesInOrder put)
      (fun w u _ => u.Bound (w.store.Knows put)) (KeepsCircles put) (KeepsCircles put) where
  rely := rely_keepsCircles put
  follows h := h.toFollows
  within h := h
  numbered h := h.1
  aside h hids := .intro (h ▸ .refl _) (fun hw => h ▸ hw) hids (.of_eq (by rw [h]))
  disturb _ _ _ := .intro (.of_log_eq rfl rfl) (fun hw => hw.congr rfl rfl) (le_refl _) (.of_eq rfl)
  putRule {w r store} _ h := by
    have hlater := Store.Later.putRule h
    obtain ⟨-, rules, rfl, -⟩ := Store.putRule_eq_ok h
    exact .intro hlater (fun hw => hw.congr rfl rfl) (le_refl _) (.of_eq rfl)
  putCircle hput h := .intro (.putCircle h) (fun hw => hw.putCircle (hput _ rfl) h) (le_refl _)
    (Store.putCircle_stay h)
  assignCircle h := .intro (.assignCircle h) (fun hw => hw.assignCircle h) (le_refl _) (by
    rw [(Store.assignCircle_eq_ok h).2]
    exact .of_eq rfl)
  swap _ h := by
    have hlater := Store.Later.replaceTotals h
    obtain ⟨_, -, -, rfl⟩ := Store.replaceTotals_eq_ok.mp h
    exact .intro hlater (fun hw => hw.congr rfl rfl) (le_refl _) (.of_eq rfl)
  later h _ hu := hu.mono fun _ _ hknown => hknown.mono h.stay
  start k hw := WorkUnit.bound_start hw.2 k
  enter hw _ _ := WorkUnit.bound_start hw.2 _
  dispatch {w u c cs staging} _ hu hstaging := by
    subst hstaging
    have hedits := Dispatcher.edits_dispatchAt (fun h hh => (hs.handlers h hh).fair) c.depth c.event
      ⟨u, w.permits, w.ids, w.now⟩ w.calls
    exact ⟨hedits.ids, Dispatcher.bound_dispatchAt hs.handlers c.depth c.event _ _ hu⟩
  fire {w u f e rule effect answer staging} _ _ _ _ hu hfire := by
    have hhandles := (⟨u, w.permits, w.ids, w.now⟩ : Staging).handles_fire s.config e f.depth rule
      effect (fun _ _ => True) trivial
    rw [hfire] at hhandles
    exact ⟨hhandles.ids_le, fun _ _ => hhandles.bound hu⟩
  call {w u name position h f e calls answer staging} _ _ hu _ hfind hreact := by
    have hsteers := hs.handlers h (Dispatcher.mem_of_find? hfind).1
    have hids := (hsteers.fair calls ⟨e, f.depth⟩ ⟨u, w.permits, w.ids, w.now⟩).ids
    have hbound := hsteers.bound _ calls ⟨e, f.depth⟩ ⟨u, w.permits, w.ids, w.now⟩ hu
    rw [hreact] at hids hbound
    exact ⟨hids, fun _ _ => hbound⟩
  demote {w u error staging} _ hu hstaging := by
    subst hstaging
    obtain ⟨_, ids, hframe, hids, -⟩ :=
      (⟨u, w.permits, w.ids, w.now⟩ : Staging).demoteTransitions_frame error w.now
    rw [hframe]
    exact ⟨hids, hu.circles, List.forall_mem_nil _⟩
  resolve _ hu := hu.congr rfl rfl
  attempt _ hu := hu.congr rfl rfl
  move {w u k target now t} hswitch hu := by
    have hheld : (u.holdPermit k).Bound _ := hu.congr rfl rfl
    obtain ⟨hcircle, rfl⟩ := switchTo_eq_transition hswitch
    exact .commit (hheld.stageTransition hcircle)
  commit hu := .commit hu

end Service

/-- Another circle was put under the identifier of the one that a membership names, and that circle
is of another program. -/
structure Inflow.Replaced (f : Inflow) (m : Membership) : Prop where
  old : ∃ c, f.Receives (.putCircle c) ∧ c.isOf m.program m.circle = true
  new : ∃ c ∈ f.traffic.world.store.circles, f.Receives (.putCircle c) ∧ c.id = m.circle ∧
    c.program ≠ m.program

namespace Service

/-- In every state of every interleaving of requests and seeds, circles have identifiers of their
own, a program has one default circle at most, and every promoter is in a circle of the program,
unless its identifier was put again for a circle of another program. -/
theorem members_in_circles {s : Service} (hs : s.Steers) {origin : Instant} {ids : IdSupply}
    {f : Inflow} (hrun : s.FlowsTo (.start origin ids) f) :
    (f.traffic.world.store.circles.map (·.id)).Nodup ∧
    (∀ p, (f.traffic.world.store.defaults p).length ≤ 1) ∧
    ∀ k m, f.traffic.world.store.memberships.get? k = some m →
      m.program = k.program ∧ m.promoter = k.promoter ∧
      ((∃ c ∈ f.traffic.world.store.circles, c.isOf m.program m.circle = true) ∨ f.Replaced m) := by
  have hstart : World.CirclesInOrder (fun c => f.Receives (.putCircle c))
      (Inflow.start origin ids).traffic.world :=
    ⟨fun _ _ h => by simp [Inflow.start, World.start, Store.empty] at h, Store.orderly_empty⟩
  obtain ⟨hkeeps, -⟩ := (upholds_circles hs _).flowsTo hstart
    (fun r _ hr c heq => heq ▸ hr) ⟨List.forall_mem_nil _, List.forall_mem_nil _⟩ hrun
  obtain ⟨-, horderly⟩ := hkeeps.keeps hstart
  refine ⟨horderly.distinct, horderly.oneDefault, fun k m hm => ?_⟩
  obtain ⟨hprogram, hpromoter, hknown⟩ := horderly.members k m hm
  refine ⟨hprogram, hpromoter, ?_⟩
  obtain ⟨c, hc, hid⟩ := hknown.stored
  by_cases hsame : c.program = m.program
  · exact .inl ⟨c, hc, by simp [Circle.isOf, hid, hsame]⟩
  · exact .inr ⟨hknown.put, c, hc, horderly.source c hc, hid, hsame⟩

/-- A seed brings two circles and a rule that moves promoters to the second one on their first
signup: then that is where the promoter is. -/
theorem member_of_seeded_circle : ∃ (s : Service) (origin : Instant) (f : Inflow),
    s.Steers ∧ s.FlowsTo (.start origin ⟨100⟩) f ∧
    f.traffic.world.store.circles.map (·.id) = [⟨7⟩, ⟨8⟩] ∧
    (f.traffic.world.store.defaults ⟨3⟩).length = 1 ∧
    ∃ m, f.traffic.world.store.memberships.get? ⟨⟨3⟩, ⟨4⟩⟩ = some m ∧ m.circle = ⟨8⟩ ∧
      ∃ c ∈ f.traffic.world.store.circles, c.isOf m.program m.circle = true := by
  let now : Instant := ⟨0, 0, by decide, by decide, by decide⟩
  let e : Event := .signup ⟨1⟩ ⟨2⟩ ⟨3⟩ ⟨4⟩ ⟨5⟩ ⟨6⟩ now
  let seed : Seed := ⟨[⟨⟨8⟩, ⟨3⟩, "gold", false⟩, ⟨⟨7⟩, ⟨3⟩, "base", true⟩],
    [⟨⟨9⟩, ⟨3⟩, "promote", .signup, none, [], .switchCircle ⟨8⟩, true⟩]⟩
  let s : Service := ⟨.default, [Script.handler ⟨"quiet", []⟩]⟩
  have hsteers : s.Steers := by
    intro h hh
    rw [List.mem_singleton.mp hh]
    exact Script.steers_handler _
  let loaded := seed.load.goOn (.start now ⟨100⟩)
  have hids : (s.afterEach loaded.2 [.publish e]).store.circles.map (·.id) = [⟨7⟩, ⟨8⟩] := by
    decide +kernel
  have hprograms : ∀ c ∈ (s.afterEach loaded.2 [.publish e]).store.circles, c.program = ⟨3⟩ := by
    decide +kernel
  have hdefault : ((s.afterEach loaded.2 [.publish e]).store.defaults ⟨3⟩).length = 1 := by
    decide +kernel
  have hmember : ((s.afterEach loaded.2 [.publish e]).store.memberships.get? ⟨⟨3⟩, ⟨4⟩⟩).map
      (·.circle) = some ⟨8⟩ := by decide +kernel
  have hload := FlowsTo.load s (.start now ⟨100⟩) [] [] seed
  obtain ⟨tasks, hpublish⟩ := reaches_afterEach s loaded.2 [] [.publish e]
  generalize s.afterEach loaded.2 [.publish e] = w at hids hprograms hdefault hmember hpublish
  have hrun := hload.trans (FlowsTo.serve _ hpublish)
  obtain ⟨m, hm, hcircle⟩ := Option.map_eq_some_iff.mp hmember
  refine ⟨s, now, _, hsteers, hrun, hids, hdefault, m, hm, hcircle, ?_⟩
  obtain ⟨hprogram, -, hplaced | hreplaced⟩ := (members_in_circles hsteers hrun).2.2 _ m hm
  · exact hplaced
  · obtain ⟨c, hc, -, -, hother⟩ := hreplaced.new
    exact (hother ((hprograms c hc).trans hprogram.symm)).elim

/-- A promoter is placed in a circle, which is then put again as one of another program. -/
theorem member_may_lose_circle :
    ¬ ∀ (s : Service) (origin : Instant) (ids : IdSupply) (f : Inflow), s.extra = [] →
      s.FlowsTo (.start origin ids) f →
      (f.traffic.world.store.circles.map (·.id)).Nodup ∧
      (∀ p, (f.traffic.world.store.defaults p).length ≤ 1) ∧
      ∀ k m, f.traffic.world.store.memberships.get? k = some m →
        ∃ c ∈ f.traffic.world.store.circles, c.isOf m.program m.circle = true := by
  intro hall
  let now : Instant := ⟨0, 0, by decide, by decide, by decide⟩
  let s : Service := ⟨.default, []⟩
  let requests : List Request := [.putCircle ⟨⟨8⟩, ⟨3⟩, "gold", false⟩,
    .assignCircle ⟨⟨3⟩, ⟨4⟩⟩ ⟨8⟩, .putCircle ⟨⟨8⟩, ⟨9⟩, "gold", false⟩]
  have hmember : ((s.afterEach (.start now ⟨100⟩) requests).store.memberships.get? ⟨⟨3⟩, ⟨4⟩⟩).map
      (fun m => (m.program, m.circle)) = some (⟨3⟩, ⟨8⟩) := by decide +kernel
  have hnone : ∀ c ∈ (s.afterEach (.start now ⟨100⟩) requests).store.circles,
      c.isOf ⟨3⟩ ⟨8⟩ = false := by decide +kernel
  obtain ⟨tasks, hrun⟩ := reaches_afterEach s (.start now ⟨100⟩) [] requests
  generalize s.afterEach (.start now ⟨100⟩) requests = w at hmember hnone hrun
  obtain ⟨m, hm, hnames⟩ := Option.map_eq_some_iff.mp hmember
  obtain ⟨hprogram, hcircle⟩ := Prod.mk.inj hnames
  obtain ⟨c, hc, hof⟩ := (hall s now ⟨100⟩ _ rfl (FlowsTo.serve [] hrun)).2.2 _ m hm
  rw [hprogram, hcircle, hnone c hc] at hof
  cases hof

end Service

end Referral
