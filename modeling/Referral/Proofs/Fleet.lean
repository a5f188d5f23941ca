import Referral.Proofs.Serving

/-!
# Several services over one store

Services over one store share what is stored and the supply of identifiers. Each of them has its own
requests, locks, permits and clock. An invariant that the parts of every service keep holds in all
states that they reach together.
-/

namespace Referral

open Procedure (Safely)

/-- Some services, with what is going on at each of them, and what they share. -/
structure Fleet : Type 1 where
  store : Store
  ids : IdSupply
  members : List (Service × Traffic)

namespace Fleet

/-- Services with nothing stored and nothing asked for, each with a clock of its own. -/
def start (services : List (Service × Instant)) (ids : IdSupply) : Fleet where
  store := .empty
  ids := ids
  members := services.map fun (s, origin) => (s, ⟨.start origin ids, []⟩)

/-- What is going on at a service, with what is stored by now. -/
def sees (f : Fleet) (t : Traffic) : Traffic :=
  { t with world := { t.world with store := f.store, ids := f.ids } }

/-- One of the services does what it may do next. -/
inductive Next (f : Fleet) : Fleet → Prop
  | act {before after : List (Service × Traffic)} {s : Service} {t t' : Traffic}
      (hmembers : f.members = before ++ (s, t) :: after) (step : s.Next (f.sees t) t') :
      Next f ⟨t'.world.store, t'.world.ids, before ++ (s, t') :: after⟩

/-- The states that a run may go through. -/
abbrev Reaches : Fleet → Fleet → Prop := Relation.ReflTransGen Next

/-- The events that were to be published at some service. -/
def Asks (f : Fleet) (e : Event) : Prop := ∃ m ∈ f.members, m.2.Asks e

variable {f f' : Fleet} {asked : Event → Prop} {I : World → Prop}

theorem Next.asks (h : f.Next f') {e : Event} (he : f.Asks e) : f'.Asks e := by
  obtain ⟨m, hm, hasks⟩ := he
  cases h with
  | act hmembers step =>
    rw [hmembers] at hm
    rcases List.mem_append.mp hm with hm | hm
    · exact ⟨m, List.mem_append_left _ hm, hasks⟩
    rcases List.mem_cons.mp hm with rfl | hm
    · exact ⟨_, List.mem_append_right _ List.mem_cons_self, step.asks hasks⟩
    · exact ⟨m, List.mem_append_right _ (List.mem_cons_of_mem _ hm), hasks⟩

/-- A run of one service, while the others rest. -/
theorem Reaches.member {before after : List (Service × Traffic)} {s : Service} {t t' : Traffic}
    (hmembers : f.members = before ++ (s, t) :: after) (h : s.Reaches (f.sees t) t') :
    Reaches f ⟨t'.world.store, t'.world.ids, before ++ (s, t') :: after⟩ := by
  induction h with
  | refl => exact .single (.act hmembers (.pass (f.sees t).world t.tasks 0 0))
  | tail _ step ih => exact ih.tail (.act rfl step)

/-- The invariant holds whichever service looks at the store, all parts of the services keep it, and
so does what is left of their requests. -/
structure Holds (asked : Event → Prop) (I : World → Prop) (f : Fleet) : Prop where
  shared : ∀ w : World, w.store = f.store → w.ids = f.ids → I w
  maintains : ∀ m ∈ f.members, ∃ U, m.1.Maintains asked I U
  tasks : ∀ m ∈ f.members, ∀ task ∈ m.2.tasks,
    task.rest.Safely I (fun _ _ => True) (f.sees m.2).world

theorem holds_start {services : List (Service × Instant)} {ids : IdSupply}
    (hservices : ∀ m ∈ services, ∃ U, m.1.Maintains asked I U)
    (hstart : ∀ w : World, w.store = .empty → w.ids = ids → I w) :
    (start services ids).Holds asked I where
  shared := hstart
  maintains m hm := by
    obtain ⟨⟨s, origin⟩, hs, rfl⟩ := List.mem_map.mp hm
    exact hservices (s, origin) hs
  tasks m hm := by
    obtain ⟨_, _, rfl⟩ := List.mem_map.mp hm
    exact List.forall_mem_nil _

theorem Holds.next (h : f.Holds asked I) (hstep : f.Next f') (hasked : ∀ e, f'.Asks e → asked e) :
    f'.Holds asked I := by
  cases hstep with
  | @act before after s t t' hmembers step =>
    have hmem : (s, t) ∈ f.members := hmembers ▸ List.mem_append_right _ List.mem_cons_self
    obtain ⟨U, hs⟩ := h.maintains _ hmem
    have hnow : I (f.sees t).world := h.shared _ rfl rfl
    obtain ⟨hfollows, htasks⟩ := hs.next hnow
      (fun e he => hasked e ⟨(s, t'), List.mem_append_right _ List.mem_cons_self, he⟩)
      (h.tasks _ hmem) step
    have hshared : ∀ w : World, w.store = t'.world.store → w.ids = t'.world.ids → I w :=
      fun w hstore hids => hs.aside hstore (by rw [hids]) (hfollows.keeps hnow)
    have hothers : ∀ m : Service × Traffic, World.Follows I (f.sees m.2).world
        (sees ⟨t'.world.store, t'.world.ids, before ++ (s, t') :: after⟩ m.2).world :=
      fun m => ⟨hfollows.later, fun _ => hshared _ rfl rfl, hfollows.ids⟩
    -- the others are as they were, and the one that acted sees what it has done
    have hmembers' : ∀ m ∈ before ++ (s, t') :: after, m ∈ f.members ∨ m = (s, t') := by
      intro m hm
      rw [hmembers]
      rcases List.mem_append.mp hm with hm | hm
      · exact .inl (List.mem_append_left _ hm)
      rcases List.mem_cons.mp hm with rfl | hm
      · exact .inr rfl
      · exact .inl (List.mem_append_right _ (List.mem_cons_of_mem _ hm))
    refine ⟨hshared, fun m hm => ?_, fun m hm task htask => ?_⟩
    · rcases hmembers' m hm with hm | rfl
      · exact h.maintains m hm
      · exact ⟨U, hs⟩
    · rcases hmembers' m hm with hm | rfl
      · exact (h.tasks m hm task htask).later (World.rely_follows I) (hothers m)
      · exact htasks task htask

/-- An invariant that the parts of all services keep holds in every state of every run. -/
theorem Reaches.holds (h : f.Holds asked I) (hrun : f.Reaches f')
    (hasked : ∀ e, f'.Asks e → asked e) : f'.Holds asked I := by
  induction hrun with
  | refl => exact h
  | tail _ hstep ih => exact (ih fun e he => hasked e (hstep.asks he)).next hstep hasked

end Fleet

end Referral
