import Mathlib.Logic.Relation
import Referral.Proofs.Contending
import Referral.Proofs.Seeing

/-!
# Calls in concert

Any number of calls publish events through one service at the same time, their actions interleaved
in any way. Each call comes to an action that decides what comes of its event at one stroke; in the
order of these actions the calls could have been made one at a time, with the same answers and the
same store.
-/

namespace Referral

/-- Answers to a published event. -/
abbrev PublishAnswer := Except Error PublishOutcome

/-- Calls that publish events through one service, with what is left to do for each of them. -/
structure Concert (n : ℕ) : Type 1 where
  world : World
  rest : Fin n → Procedure PublishAnswer

namespace Concert

open Procedure World

variable {n : ℕ} {s : Service} {e : Fin n → Event}

/-- All calls are about to begin. -/
def start (s : Service) (w : World) (e : Fin n → Event) : Concert n :=
  ⟨w, fun i => s.publish (e i)⟩

/-- What can happen next: a call goes on by one action, or time passes. -/
inductive Next : Concert n → Concert n → Prop
  | act {w w' : World} {rest : Fin n → Procedure PublishAnswer} {i : Fin n}
      {p : Procedure PublishAnswer} (step : (rest i).Step w p w') :
      Next ⟨w, rest⟩ ⟨w', Function.update rest i p⟩
  | pass (w : World) (rest : Fin n → Procedure PublishAnswer) (millis turns : ℕ) :
      Next ⟨w, rest⟩ ⟨{ w with elapsed := w.elapsed + millis, turns := w.turns + turns }, rest⟩

/-- The states that a run may go through. -/
abbrev Reaches : Concert n → Concert n → Prop := Relation.ReflTransGen Next

/-! ## One at a time -/

/-- Events are published one after the other, each with the world to itself, and get the given
answers. The identifiers to come and the clock may be set before each of them. -/
inductive InTurn (s : Service) : List (Event × PublishAnswer) → World → World → Prop
  | none (w : World) : InTurn s [] w w
  | next {e : Event} {a : PublishAnswer} {calls : List (Event × PublishAnswer)} {w w₁ w' : World}
      (ids : IdSupply) (elapsed : ℕ) (run : (s.publish e).Runs { w with ids, elapsed } a w₁)
      (rest : InTurn s calls w₁ w') : InTurn s ((e, a) :: calls) w w'

/-- Events are published one after the other, each at one stroke. -/
inductive Strokes (s : Service) (origin : Instant) :
    List (Event × PublishAnswer) → Store → Store → Prop
  | none (store : Store) : Strokes s origin [] store store
  | next {e : Event} {a : PublishAnswer} {calls : List (Event × PublishAnswer)}
      {store store₁ store' : Store} (stroke : s.AtOnce origin e store a store₁)
      (rest : Strokes s origin calls store₁ store') :
      Strokes s origin ((e, a) :: calls) store store'

namespace Strokes

variable {origin : Instant} {calls others : List (Event × PublishAnswer)} {store store' : Store}

theorem append_iff : Strokes s origin (calls ++ others) store store' ↔
    ∃ between, Strokes s origin calls store between ∧ Strokes s origin others between store' := by
  induction calls generalizing store with
  | nil =>
    constructor
    · exact fun h => ⟨store, .none store, h⟩
    · rintro ⟨between, h, h'⟩
      cases h
      exact h'
  | cons call calls ih =>
    constructor
    · rintro (_ | ⟨stroke, rest⟩)
      obtain ⟨between, h, h'⟩ := ih.mp rest
      exact ⟨between, .next stroke h, h'⟩
    · rintro ⟨between, _ | ⟨stroke, rest⟩, h'⟩
      exact .next stroke (ih.mpr ⟨between, rest, h'⟩)

theorem single {e : Event} {a : PublishAnswer} (h : s.AtOnce origin e store a store') :
    Strokes s origin [(e, a)] store store' := .next h (.none store')

/-- What is done at one stroke can be done by calls that are made one at a time. -/
theorem inTurn (hbuiltIn : s.extra = []) (h : Strokes s origin calls store store') {w : World}
    (hstore : w.store = store) (horigin : w.origin = origin) (hw : w.Rests)
    (hzero : w.store.failingCommits = 0) :
    ∃ w', InTurn s calls w w' ∧ w'.store = store' ∧ w'.origin = origin ∧ w'.Rests ∧
      w'.store.failingCommits = 0 := by
  induction h generalizing w with
  | none store => exact ⟨w, .none w, hstore, horigin, hw, hzero⟩
  | next stroke _ ih =>
    subst hstore horigin
    obtain ⟨ids, elapsed, w₁, hrun, hstore₁, hrests₁, horigin₁⟩ := stroke.runs hbuiltIn hw hzero
    have hzero₁ : w₁.store.failingCommits = 0 := by
      rw [hstore₁]
      exact stroke.failingCommits hzero
    obtain ⟨w', hrest, hend⟩ := ih hstore₁ horigin₁ hrests₁ hzero₁
    exact ⟨w', .next ids elapsed hrun hrest, hend⟩

theorem later (h : Strokes s origin calls store store') : store.Later store' := by
  induction h with
  | none store => exact .refl store
  | next stroke _ ih => exact stroke.later.trans ih

/-- Totals that are right stay so. -/
theorem shows (hbuiltIn : s.extra = []) (h : Strokes s origin calls store store')
    (hshows : store.Shows) : store'.Shows := by
  induction h with
  | none store => exact hshows
  | next stroke _ ih => exact ih (stroke.shows hbuiltIn hshows)

/-- Events that may not be published store nothing. -/
theorem of_refused (store : Store)
    (h : ∀ call ∈ calls, ∃ error, Service.accept call.1 = .error error ∧ call.2 = .error error) :
    Strokes s origin calls store store := by
  induction calls with
  | nil => exact .none store
  | cons call calls ih =>
    obtain ⟨e, a⟩ := call
    rw [List.forall_mem_cons] at h
    obtain ⟨⟨error, hinvalid, rfl⟩, hrest⟩ := h
    exact .next (.invalid hinvalid) (ih hrest)

end Strokes

/-! ## What is known in every state -/

/-- How far a call is: it has not begun, or its task has a name and the action that decides is still
to come, or what came of its event is among the decisions. -/
def Phase (s : Service) (w : World) (decisions : List (Fin n × PublishAnswer)) (i : Fin n)
    (e : Event) (rest : Procedure PublishAnswer) : Option TaskId → Prop
  | none => i ∉ decisions.map Prod.fst ∧ rest = s.publish e
  | some task =>
    i ∉ decisions.map Prod.fst ∧
      rest.Decides (Leaves task) (Respects task) (s.Publishes e) (fun _ _ => True) w ∨
    ∃ a, (i, a) ∈ decisions ∧
      rest.Quietly (Leaves task) (Respects task) (fun b _ => b = a) w

/-- The calls keep apart, and each of them is known to be at some point, with what was decided so
far in the order of the decisions. -/
structure Known (s : Service) (origin : Instant) (store : Store) (e : Fin n → Event)
    (t : Concert n) (tasks : Fin n → Option TaskId) (decisions : List (Fin n × PublishAnswer)) :
    Prop where
  orderly : t.world.Orderly
  clock : t.world.origin = origin
  named : ∀ i task, tasks i = some task → task < t.world.nextTask
  apart : ∀ i j task, tasks i = some task → tasks j = some task → i = j
  nodup : (decisions.map Prod.fst).Nodup
  strokes : Strokes s origin (decisions.map fun d => (e d.1, d.2)) store t.world.store
  phase : ∀ i, Phase s t.world decisions i (e i) (t.rest i) (tasks i)

variable {origin : Instant} {store : Store} {w w' : World} {rest : Fin n → Procedure PublishAnswer}
  {p : Procedure PublishAnswer} {tasks : Fin n → Option TaskId}
  {decisions new : List (Fin n × PublishAnswer)} {i j : Fin n} {name : Option TaskId}
  {t t' : Concert n}

/-- A call is where it was, whatever others do and decide. -/
theorem Phase.later {e : Event} (h : Phase s w decisions i e p name)
    (hleaves : ∀ task, name = some task → w.Leaves task w') (hnew : ∀ d ∈ new, d.1 ≠ i) :
    Phase s w' (decisions ++ new) i e p name := by
  have hundecided : i ∉ decisions.map Prod.fst → i ∉ (decisions ++ new).map Prod.fst := by
    intro hnot hmem
    rw [List.map_append, List.mem_append] at hmem
    obtain ⟨d, hd, hi⟩ := List.mem_map.mp (hmem.resolve_left hnot)
    exact hnew d hd hi
  cases name with
  | none => exact ⟨hundecided h.1, h.2⟩
  | some task =>
    have hw := hleaves task rfl
    rcases h with ⟨hnot, hdecides⟩ | ⟨a, ha, hquiet⟩
    · exact .inl ⟨hundecided hnot, hdecides.later (rely_leaves task) hw⟩
    · exact .inr ⟨a, List.mem_append_left new ha, hquiet.later (rely_leaves task) hw⟩

/-- One call goes on, and leaves to the others what is theirs. -/
theorem Known.advance (h : Known s origin store e ⟨w, rest⟩ tasks decisions)
    (hothers : ∀ j ≠ i, ∀ task, tasks j = some task → w.Leaves task w')
    (horderly : w'.Orderly) (horigin : w'.origin = w.origin) (htasks : w.nextTask ≤ w'.nextTask)
    (hname : ∀ task, name = some task → task < w'.nextTask ∧ ∀ j ≠ i, tasks j ≠ some task)
    (hnew : ∀ d ∈ new, d.1 = i) (hnodup : ((decisions ++ new).map Prod.fst).Nodup)
    (hstrokes : Strokes s origin (new.map fun d => (e d.1, d.2)) w.store w'.store)
    (hphase : Phase s w' (decisions ++ new) i (e i) p name) :
    Known s origin store e ⟨w', Function.update rest i p⟩ (Function.update tasks i name)
      (decisions ++ new) where
  orderly := horderly
  clock := horigin.trans h.clock
  named j task hj := by
    by_cases hji : j = i
    · rw [hji, Function.update_self] at hj
      exact (hname task hj).1
    · rw [Function.update_of_ne hji] at hj
      exact (h.named j task hj).trans_le htasks
  apart j k task hj hk := by
    by_cases hji : j = i <;> by_cases hki : k = i
    · rw [hji, hki]
    · rw [hji, Function.update_self] at hj
      rw [Function.update_of_ne hki] at hk
      exact absurd hk ((hname task hj).2 k hki)
    · rw [hki, Function.update_self] at hk
      rw [Function.update_of_ne hji] at hj
      exact absurd hj ((hname task hk).2 j hji)
    · rw [Function.update_of_ne hji] at hj
      rw [Function.update_of_ne hki] at hk
      exact h.apart j k task hj hk
  nodup := hnodup
  strokes := by
    rw [List.map_append]
    exact Strokes.append_iff.mpr ⟨w.store, h.strokes, hstrokes⟩
  phase j := by
    by_cases hji : j = i
    · subst hji
      simpa only [Function.update_self] using hphase
    · simp only [Function.update_of_ne hji]
      exact (h.phase j).later (hothers j hji) fun d hd hdj => hji (hdj.symm.trans (hnew d hd))

/-- In the beginning nothing is decided. -/
theorem known_start (hw : w.Rests) (hzero : w.store.failingCommits = 0) :
    Known s w.origin w.store e (start s w e) (fun _ => none) [] where
  orderly := by
    refine ⟨hzero, fun k hk => ?_, fun key task htask => ?_⟩
    · rw [start, hw.permits] at hk
      cases hk
    · rw [start, hw.locks key] at htask
      cases htask
  clock := rfl
  named _ _ h := by cases h
  apart _ _ _ h := by cases h
  nodup := List.nodup_nil
  strokes := .none _
  phase _ := ⟨List.not_mem_nil, rfl⟩

/-- A call begins. -/
theorem Known.begin (hbuiltIn : s.extra = [])
    (h : Known s origin store e ⟨w, rest⟩ tasks decisions) (hi : tasks i = none)
    (hstep : (rest i).Step w p w') :
    ∃ tasks', Known s origin store e ⟨w', Function.update rest i p⟩ tasks' decisions := by
  have hphase := h.phase i
  rw [hi] at hphase
  obtain ⟨hundecided, hrest⟩ := hphase
  change rest i = s.publish (e i) at hrest
  rw [hrest, Service.publish] at hstep
  cases hvalid : Service.accept (e i) with
  | error error =>
    rw [hvalid] at hstep
    cases hstep
  | ok _ =>
    rw [hvalid] at hstep
    obtain ⟨rfl, rfl⟩ := withLocks_step hstep
    have hleaves : ∀ task, w.Leaves task { w with nextTask := w.nextTask + 1 } :=
      leaves_of_eq rfl rfl rfl rfl le_rfl (Nat.le_succ _)
    have hphase : Phase s { w with nextTask := w.nextTask + 1 } (decisions ++ []) i (e i)
        (lockedAs w.nextTask (e i).lockKeys (s.record (e i))) (some w.nextTask) := by
      rw [List.append_nil]
      refine .inl ⟨hundecided, Service.decides_publish hbuiltIn hvalid
        ((hleaves 0).orderly h.orderly) (Nat.lt_succ_self _) fun key hkey => ?_⟩
      exact (h.orderly.tasks key _ hkey).false
    have hnext := h.advance (i := i) (fun j _ task _ => hleaves task)
      ((hleaves 0).orderly h.orderly) rfl (Nat.le_succ _)
      (fun task htask => ?_) (List.forall_mem_nil _) (by simpa using h.nodup) (.none _) hphase
    · rw [List.append_nil] at hnext
      exact ⟨_, hnext⟩
    · obtain rfl := Option.some.inj htask
      exact ⟨Nat.lt_succ_self _, fun j _ hj => (h.named j _ hj).false⟩

/-- A call whose task has a name goes on. -/
theorem Known.go (h : Known s origin store e ⟨w, rest⟩ tasks decisions) {task : TaskId}
    (hi : tasks i = some task) (hstep : (rest i).Step w p w') :
    ∃ tasks' decisions',
      Known s origin store e ⟨w', Function.update rest i p⟩ tasks' decisions' := by
  have hphase := h.phase i
  rw [hi] at hphase
  -- what is new in the decisions is the only thing that depends on the phase
  have hadvance : ∀ new : List (Fin n × PublishAnswer), w.Respects task w' →
      (∀ d ∈ new, d.1 = i) → ((decisions ++ new).map Prod.fst).Nodup →
      Strokes s origin (new.map fun d => (e d.1, d.2)) w.store w'.store →
      Phase s w' (decisions ++ new) i (e i) p (some task) →
      ∃ tasks' decisions',
        Known s origin store e ⟨w', Function.update rest i p⟩ tasks' decisions' := by
    intro new hresp hnew hnodup hstrokes hphase
    have hapart : ∀ j ≠ i, tasks j ≠ some task := fun j hj hname => hj (h.apart j i task hname hi)
    refine ⟨_, _, h.advance (fun j hj other hother => hresp other ?_) (hresp.orderly h.orderly)
      hresp.origin hresp.tasks (fun other hother => ?_) hnew hnodup hstrokes hphase⟩
    · rintro rfl
      exact hapart j hj hother
    · obtain rfl := Option.some.inj hother
      exact ⟨(h.named i _ hi).trans_le hresp.tasks, hapart⟩
  rcases hphase with ⟨hundecided, hdecides⟩ | ⟨a, ha, hquiet⟩
  · obtain ⟨hresp, ⟨hstore, hrest⟩ | ⟨a, hdecided, hrest⟩⟩ :=
      hdecides.step (rely_leaves task) hstep
    · refine hadvance [] hresp (List.forall_mem_nil _) (by simpa using h.nodup) ?_ ?_
      · rw [hstore]
        exact .none _
      · rw [List.append_nil]
        exact .inl ⟨hundecided, hrest⟩
    · have hquiet : p.Quietly (Leaves task) (Respects task) (fun b _ => b = a) w' :=
        hrest.weaken (fun _ _ _ h => h) fun _ _ h => h.1
      refine hadvance [(i, a)] hresp (by simp) ?_ ?_ (.inr ⟨a, by simp, hquiet⟩)
      · rw [List.map_append, List.nodup_append]
        refine ⟨h.nodup, List.nodup_singleton i, fun j hj k hk => ?_⟩
        rintro rfl
        rw [List.mem_singleton.mp hk] at hj
        exact hundecided hj
      · have hstroke : s.AtOnce w.origin (e i) w.store a w'.store := hdecided
        rw [show w.origin = origin from h.clock] at hstroke
        exact .single hstroke
  · obtain ⟨⟨hresp, hstore⟩, hrest⟩ := hquiet.step (rely_leaves task) hstep
    refine hadvance [] hresp (List.forall_mem_nil _) (by simpa using h.nodup) ?_ ?_
    · rw [hstore]
      exact .none _
    · rw [List.append_nil]
      exact .inr ⟨a, ha, hrest⟩

/-- What is known stays known whatever happens next. -/
theorem Known.next (hbuiltIn : s.extra = []) (h : Known s origin store e t tasks decisions)
    (hnext : t.Next t') : ∃ tasks' decisions', Known s origin store e t' tasks' decisions' := by
  cases hnext with
  | @act w w' rest i p hstep =>
    cases hi : tasks i with
    | none =>
      obtain ⟨tasks', hknown⟩ := h.begin hbuiltIn hi hstep
      exact ⟨tasks', decisions, hknown⟩
    | some task => exact h.go hi hstep
  | pass w rest millis turns =>
    have hleaves : ∀ task, w.Leaves task
        { w with elapsed := w.elapsed + millis, turns := w.turns + turns } :=
      leaves_of_eq rfl rfl rfl rfl (Nat.le_add_right _ _) le_rfl
    refine ⟨tasks, decisions, (hleaves 0).orderly h.orderly, h.clock, h.named, h.apart, h.nodup,
      h.strokes, fun i => ?_⟩
    have hphase := (h.phase i).later (fun task _ => hleaves task) (List.forall_mem_nil _)
    rwa [List.append_nil] at hphase

/-- Whatever a run has come to, there is an order of decisions that accounts for it. -/
theorem Reaches.known (hbuiltIn : s.extra = []) (hw : w.Rests) (hzero : w.store.failingCommits = 0)
    (hrun : (start s w e).Reaches t) :
    ∃ tasks decisions, Known s w.origin w.store e t tasks decisions := by
  induction hrun with
  | refl => exact ⟨_, _, known_start hw hzero⟩
  | tail _ hnext ih =>
    obtain ⟨tasks, decisions, hknown⟩ := ih
    exact hknown.next hbuiltIn hnext

/-! ## All calls over -/

variable {answers : Fin n → PublishAnswer}

/-- What was decided is what the calls answer. -/
theorem Known.answer_eq (h : Known s origin store e t tasks decisions)
    (hdone : ∀ i, t.rest i = done (answers i)) {d : Fin n × PublishAnswer} (hd : d ∈ decisions) :
    d.2 = answers d.1 := by
  have hdecided : d.1 ∈ decisions.map Prod.fst := List.mem_map_of_mem hd
  have hphase := h.phase d.1
  rw [hdone] at hphase
  cases hname : tasks d.1 with
  | none =>
    rw [hname] at hphase
    exact (hphase.1 hdecided).elim
  | some task =>
    rw [hname] at hphase
    rcases hphase with ⟨hundecided, -⟩ | ⟨a, ha, hquiet⟩
    · exact (hundecided hdecided).elim
    · have hanswer : answers d.1 = a := hquiet _ ((rely_leaves task).refl _)
      have hsame : d = (d.1, a) := List.inj_on_of_nodup_map h.nodup hd ha rfl
      rw [hanswer, hsame]

/-- A call that is over without a decision was for an event that may not be published. -/
theorem Known.refused (h : Known s origin store e t tasks decisions)
    (hdone : ∀ i, t.rest i = done (answers i)) (hi : i ∉ decisions.map Prod.fst) :
    ∃ error, Service.accept (e i) = .error error ∧ answers i = .error error := by
  have hphase := h.phase i
  rw [hdone] at hphase
  cases hname : tasks i with
  | none =>
    rw [hname] at hphase
    have hrest : done (answers i) = s.publish (e i) := hphase.2
    rw [Service.publish] at hrest
    cases hvalid : Service.accept (e i) with
    | error error =>
      rw [hvalid] at hrest
      exact ⟨error, rfl, Procedure.done.inj hrest⟩
    | ok _ =>
      rw [hvalid] at hrest
      exact (withLocks_ne_done hrest.symm).elim
  | some task =>
    rw [hname] at hphase
    rcases hphase with ⟨-, hdecides⟩ | ⟨a, ha, -⟩
    · exact hdecides.elim
    · exact (hi (List.mem_map_of_mem ha)).elim

/-- The calls in some order, with their answers. -/
def calls (e : Fin n → Event) (answers : Fin n → PublishAnswer) (order : List (Fin n)) :
    List (Event × PublishAnswer) := order.map fun i => (e i, answers i)

/-- All calls can be put in an order in which each of them is made at one stroke. -/
theorem Known.exists_strokes (h : Known s origin store e t tasks decisions)
    (hdone : ∀ i, t.rest i = done (answers i)) : ∃ order : List (Fin n),
      order.Perm (List.finRange n) ∧ Strokes s origin (calls e answers order) store t.world.store := by
  -- the calls that were refused come last
  let refused := (List.finRange n).filter (· ∉ decisions.map Prod.fst)
  have hmem : ∀ {i}, i ∈ refused ↔ i ∉ decisions.map Prod.fst := by
    simp [refused]
  refine ⟨decisions.map Prod.fst ++ refused, ?_, ?_⟩
  · have hnodup : (decisions.map Prod.fst ++ refused).Nodup := by
      refine List.nodup_append.mpr ⟨h.nodup, (List.nodup_finRange n).filter _, ?_⟩
      rintro i hi j hj rfl
      exact hmem.mp hj hi
    refine (List.perm_ext_iff_of_nodup hnodup (List.nodup_finRange n)).mpr fun i => ?_
    rw [List.mem_append, hmem]
    exact iff_of_true (Decidable.em _) (List.mem_finRange i)
  · rw [calls, List.map_append]
    refine Strokes.append_iff.mpr ⟨t.world.store, ?_, .of_refused _ fun call hcall => ?_⟩
    · have hstrokes := h.strokes
      rw [List.map_map]
      rwa [List.map_congr_left fun d hd => by rw [h.answer_eq hdone hd]] at hstrokes
    · obtain ⟨i, hi, rfl⟩ := List.mem_map.mp hcall
      exact h.refused hdone (hmem.mp hi)

/-- Calls that publish events at the same time, in whatever way their actions follow each other, can
be put in an order such that made one at a time in this order they get the same answers and leave
the same store. If the stored totals are right to begin with, the rules for each event that was
committed were matched against the log before it and what was staged with it. -/
theorem exists_serial_order (hbuiltIn : s.extra = []) (hw : w.Rests)
    (hzero : w.store.failingCommits = 0) (hrun : (start s w e).Reaches t)
    (hdone : ∀ i, t.rest i = done (answers i)) :
    ∃ order : List (Fin n), order.Perm (List.finRange n) ∧
      (∃ w', InTurn s (calls e answers order) w w' ∧ w'.store = t.world.store) ∧
      (w.store.Shows → ∀ before i after report, order = before ++ i :: after →
        answers i = .ok (.committed report) → ∃ w₁ w₂ w',
          InTurn s (calls e answers before) w w₁ ∧ InTurn s (calls e answers [i]) w₁ w₂ ∧
          InTurn s (calls e answers after) w₂ w' ∧ w'.store = t.world.store ∧
          s.CommitsByLog (e i) report w₁.store w₂.store ∧
          w₂.store.facts <+: t.world.store.facts) := by
  obtain ⟨tasks, decisions, hknown⟩ := hrun.known hbuiltIn hw hzero
  obtain ⟨order, hall, hstrokes⟩ := hknown.exists_strokes hdone
  refine ⟨order, hall, ?_, ?_⟩
  · obtain ⟨w', hturns, hstore, -⟩ := hstrokes.inTurn hbuiltIn rfl rfl hw hzero
    exact ⟨w', hturns, hstore⟩
  rintro hshows before i after report rfl hanswer
  rw [calls, List.map_append, List.map_cons] at hstrokes
  obtain ⟨store₁, hbefore, hrest⟩ := Strokes.append_iff.mp hstrokes
  cases hrest with
  | @next _ _ _ _ store₂ _ hstroke hafter =>
    obtain ⟨w₁, hturns₁, hstore₁, horigin₁, hrests₁, hzero₁⟩ :=
      hbefore.inTurn hbuiltIn rfl rfl hw hzero
    obtain ⟨w₂, hturns₂, hstore₂, horigin₂, hrests₂, hzero₂⟩ :=
      (Strokes.single hstroke).inTurn hbuiltIn hstore₁ horigin₁ hrests₁ hzero₁
    obtain ⟨w', hturns', hstore', -⟩ :=
      hafter.inTurn hbuiltIn hstore₂ horigin₂ hrests₂ hzero₂
    rw [hanswer] at hstroke
    refine ⟨w₁, w₂, w', hturns₁, hturns₂, hturns', hstore', ?_, ?_⟩
    · rw [hstore₁, hstore₂]
      exact hstroke.commitsByLog hbuiltIn (hbefore.shows hbuiltIn hshows)
    · rw [hstore₂]
      exact (hafter.later.log).map _

/-! ## A contest -/

/-- A call does its next action, unless it has to wait or is over. -/
def advance (t : Concert n) (i : Fin n) : Concert n :=
  match t.rest i with
  | act action next =>
    if action.isReady t.world then
      ⟨(t.world.perform action).2,
        Function.update t.rest i (next (t.world.perform action).1)⟩
    else t
  | _ => t

theorem reaches_advance (t : Concert n) (i : Fin n) : t.Reaches (t.advance i) := by
  unfold advance
  split
  · rename_i action next hrest
    split
    · rename_i hready
      refine .single (.act (i := i) ?_)
      rw [hrest]
      exact .act hready
    · exact .refl
  · exact .refl

theorem reaches_foldl_advance (t : Concert n) (turns : List (Fin n)) :
    t.Reaches (turns.foldl advance t) := by
  induction turns generalizing t with
  | nil => exact .refl
  | cons i turns ih => exact (reaches_advance t i).trans (ih _)

/-- Two signups of a promoter, published at the same time under a rule that rewards from the second
signup on: the one that is committed second is rewarded, by the log with the other in it. -/
theorem two_signups_in_order : ∃ (s : Service) (w : World) (e : Fin 2 → Event) (t : Concert 2)
    (answers : Fin 2 → PublishAnswer), (start s w e).Reaches t ∧
    (∀ i, t.rest i = done (answers i)) ∧
    (∃ order : List (Fin 2), order.Perm (List.finRange 2) ∧
      ∃ w', InTurn s (calls e answers order) w w' ∧ w'.store = t.world.store) ∧
    ∃ report w₁ w₂, answers 0 = .ok (.committed report) ∧ report.commissions.length = 1 ∧
      s.CommitsByLog (e 0) report w₁ w₂ := by
  let now : Instant := ⟨0, 0, by decide, by decide, by decide⟩
  let s : Service := ⟨.default, []⟩
  let e : Fin 2 → Event := fun i => .signup ⟨i + 10⟩ ⟨2⟩ ⟨3⟩ ⟨4⟩ ⟨5⟩ ⟨6⟩ now
  let r : Rule := ⟨⟨7⟩, ⟨3⟩, "from the second on", .signup, none,
    [⟨.signups, .greaterOrEqual, "2"⟩], .generateCommission (.fixed ⟨50000, by decide, by decide⟩),
    true⟩
  let w : World := ((s.serve (.putRule r)).goOn (.start now ⟨100⟩)).2
  -- the second call is the first at the locks, and the first call waits behind it
  let begun : Concert 2 := [0, 1, 1, 0, 1, 0].foldl advance (start s w e)
  let t : Concert 2 := (List.replicate 20 (1 : Fin 2) ++ List.replicate 20 0).foldl advance begun
  have hrun : (start s w e).Reaches t :=
    (reaches_foldl_advance _ _).trans (reaches_foldl_advance _ _)
  have hanswered : ∀ i, (t.rest i).answer?.isSome = true := by decide +kernel
  have hended : ∀ i, ∃ a, t.rest i = done a := fun i =>
    (Option.isSome_iff_exists.mp (hanswered i)).imp fun _ => eq_done_of_answer?
  choose answers hdone using hended
  have hrests : w.Rests := ⟨fun _ => rfl, by decide +kernel⟩
  have hshows : w.store.Shows := PromoterTotals.shows_zero
  have hrewarded : ((t.rest 0).answer?.bind Except.toOption).any (fun
      | .committed report => report.commissions.length = 1
      | .duplicate _ => false) = true := by decide +kernel
  rw [hdone 0] at hrewarded
  obtain ⟨order, hall, hturns, hbyLog⟩ :=
    exists_serial_order (s := s) rfl hrests (by decide +kernel) hrun hdone
  refine ⟨s, w, e, t, answers, hrun, hdone, ⟨order, hall, hturns⟩, ?_⟩
  obtain ⟨before, after, horder⟩ := List.append_of_mem (hall.mem_iff.mpr (List.mem_finRange 0))
  cases hanswer : answers 0 with
  | error error =>
    rw [hanswer] at hrewarded
    cases hrewarded
  | ok outcome =>
    rw [hanswer] at hrewarded
    cases outcome with
    | duplicate id => cases hrewarded
    | committed report =>
      obtain ⟨w₁, w₂, _, _, _, _, _, hcommits, _⟩ :=
        hbyLog hshows before 0 after report horder hanswer
      exact ⟨report, _, _, rfl, of_decide_eq_true hrewarded, hcommits⟩

end Concert

end Referral
