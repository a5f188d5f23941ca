import Referral.Proofs.Commissions
import Referral.Proofs.SoundLog

/-!
# Totals and their days

Every total is kept as a running total and day by day. The stored totals need not be those of the
log: an event may be left uncounted, and a scope may be replaced while the rest stays. But the
totals of promoters are always those of some events, and so are the totals of links, though perhaps
of others. So a running total is the sum of its days, and a commission is that of signups and that
of purchases.
-/

namespace Referral

/-! ## Maps with days -/

section Sum

variable {κ δ ν : Type} [DecidableEq κ] [DecidableEq δ] [Summable ν] [Measured ν]

/-- What is contributed to a key is what is contributed to it on the days that there are. -/
theorem sumAt_map_forget {cs : List ((κ × δ) × ν)} {days : Finset δ} (h : ∀ c ∈ cs, c.1.2 ∈ days)
    (k : κ) (f : Measured.Field ν) :
    sumAt (cs.map fun c => (c.1.1, c.2)) k f = ∑ day ∈ days, sumAt cs (k, day) f := by
  induction cs with
  | nil => simp
  | cons c cs ih =>
    obtain ⟨⟨k', day'⟩, v⟩ := c
    rw [List.forall_mem_cons] at h
    simp only [List.map_cons, sumAt_cons, ih h.2, Finset.sum_add_distrib, Prod.mk.injEq]
    by_cases hk : k' = k
    · simp [hk, h.1]
    · simp [hk]

/-- Contributions with the same sums on each day have the same sums. -/
theorem sumAt_map_forget_congr {cs ds : List ((κ × δ) × ν)} {k : κ} {f : Measured.Field ν}
    (h : ∀ day, sumAt cs (k, day) f = sumAt ds (k, day) f) :
    sumAt (cs.map fun c => (c.1.1, c.2)) k f = sumAt (ds.map fun c => (c.1.1, c.2)) k f := by
  let days : Finset δ := ((cs ++ ds).map (·.1.2)).toFinset
  have hmem : ∀ c ∈ cs ++ ds, c.1.2 ∈ days := fun c hc =>
    List.mem_toFinset.mpr (List.mem_map_of_mem hc)
  rw [sumAt_map_forget fun c hc => hmem c (List.mem_append_left _ hc),
    sumAt_map_forget fun c hc => hmem c (List.mem_append_right _ hc)]
  exact Finset.sum_congr rfl fun day _ => h day

/-- A field that is the sum of two others in each contribution is so in their sums. -/
theorem sumAt_eq_add {cs : List (κ × ν)} {f g h : Measured.Field ν}
    (hcs : ∀ c ∈ cs, value c.2 f = value c.2 g + value c.2 h) (k : κ) :
    sumAt cs k f = sumAt cs k g + sumAt cs k h := by
  induction cs with
  | nil => rfl
  | cons c cs ih =>
    rw [List.forall_mem_cons] at hcs
    simp only [sumAt_cons, ih hcs.2]
    split
    · rw [hcs.1]
      ring
    · ring

end Sum

namespace OrderedMap

variable {κ δ ν : Type} [Ranked κ] [Ranked δ]

/-- The totals of the days that there are at a key. -/
def days [DecidableEq κ] (d : OrderedMap (κ × δ) ν) (k : κ) : List ν :=
  (d.entries.filter (·.1.1 = k)).map (·.2)

variable [DecidableEq κ] [DecidableEq δ] [Summable ν] [Measured ν]

/-- There is a total exactly where there is a day, and each field of it is the exact sum over the
days. -/
structure SumsDays (m : OrderedMap κ ν) (d : OrderedMap (κ × δ) ν) : Prop where
  contains_iff : ∀ k, m.contains k = true ↔ ∃ day, d.contains (k, day) = true
  value_total : ∀ k f, value (m.total k) f = ((d.days k).map fun v => value v f).sum

variable {m : OrderedMap κ ν} {d : OrderedMap (κ × δ) ν} {p : κ → Bool} {cs ds : List (κ × ν)}

/-- Totals with and without days agree if they are those of the same contributions. -/
theorem Tallies.sumsDays {ε : Type} {key : ε → κ} {day : ε → δ} {v : ε → ν} {es : List ε}
    (hm : m.Tallies (fun _ => true) (es.map fun e => (key e, v e)))
    (hd : d.Tallies (fun _ => true) (es.map fun e => ((key e, day e), v e))) : m.SumsDays d where
  contains_iff k := by
    rw [hm.contains_iff k rfl]
    simp only [hd.contains_iff _ rfl, List.map_map, List.mem_map, Function.comp, Prod.mk.injEq]
    constructor
    · rintro ⟨e, he, rfl⟩
      exact ⟨day e, e, he, rfl, rfl⟩
    · rintro ⟨_, e, he, rfl, rfl⟩
      exact ⟨e, he, rfl⟩
  value_total k f := by
    have hown := d.tallies_entries fun _ => true
    have hsame : ∀ j, sumAt (es.map fun e => ((key e, day e), v e)) (k, j) f =
        sumAt d.entries (k, j) f := fun j =>
      (hd.value_total (k, j) rfl f).symm.trans (hown.value_total (k, j) rfl f)
    have hforget := sumAt_map_forget_congr hsame
    rw [List.map_map] at hforget
    rw [hm.value_total k rfl, Function.comp_def] at *
    rw [hforget]
    simp [sumAt, days, List.filter_map, Function.comp_def]

/-- Contributions to different keys can be put together. -/
theorem Tallies.append_of_disjoint {m : OrderedMap κ ν} (h : m.Tallies p cs)
    (h' : m.Tallies (fun k => !p k) ds) (hcs : ∀ c ∈ cs, p c.1 = true)
    (hds : ∀ c ∈ ds, p c.1 = false) : m.Tallies (fun _ => true) (cs ++ ds) := by
  have hin : ∀ k, p k = true → k ∉ ds.map (·.1) := by
    rintro k hk hmem
    obtain ⟨c, hc, rfl⟩ := List.mem_map.mp hmem
    simp [hds c hc] at hk
  have hout : ∀ k, p k = false → k ∉ cs.map (·.1) := by
    rintro k hk hmem
    obtain ⟨c, hc, rfl⟩ := List.mem_map.mp hmem
    simp [hcs c hc] at hk
  constructor
  · intro k _
    rw [List.map_append, List.mem_append]
    cases hk : p k with
    | true => rw [h.contains_iff k hk, or_iff_left (hin k hk)]
    | false => rw [h'.contains_iff k (by simp [hk]), or_iff_right (hout k hk)]
  · intro k _ f
    rw [sumAt_append]
    cases hk : p k with
    | true => rw [h.value_total k hk, sumAt_eq_zero (hin k hk), add_zero]
    | false => rw [h'.value_total k (by simp [hk]), sumAt_eq_zero (hout k hk), zero_add]

/-- The keys that a patch takes from the outer map are tallied if they are there. -/
theorem Tallies.patch_outside {inside outside : OrderedMap κ ν}
    (h : outside.Tallies (fun k => !p k) cs) :
    (OrderedMap.patch inside outside p).Tallies (fun k => !p k) cs where
  contains_iff k hk := by
    have hp : p k = false := by simpa using hk
    simp [← h.contains_iff k hk, contains_eq_isSome, hp]
  value_total k hk f := by
    have hp : p k = false := by simpa using hk
    simp [← h.value_total k hk f, total, hp]

/-- A patch has the totals of what each of the two maps was made of where it is taken from it. -/
theorem Tallies.patch_append {ε : Type} {g : ε → κ × ν} {es es' : List ε}
    {inside outside : OrderedMap κ ν} (hin : inside.Tallies p (es'.map g))
    (hout : outside.Tallies (fun _ => true) (es.map g)) :
    (OrderedMap.patch inside outside p).Tallies (fun _ => true)
      ((es'.filter (fun e => p (g e).1) ++ es.filter fun e => !p (g e).1).map g) := by
  have hinside : (OrderedMap.patch inside outside p).Tallies p
      ((es'.filter fun e => p (g e).1).map g) :=
    ((tallies_map_filter_iff (fun _ h => h) es').mpr hin).patch
  have houtside : (OrderedMap.patch inside outside p).Tallies (fun k => !p k)
      ((es.filter fun e => !p (g e).1).map g) :=
    ((tallies_map_filter_iff (fun _ h => h) es).mpr (hout.mono fun _ _ => rfl)).patch_outside
  rw [List.map_append]
  refine hinside.append_of_disjoint houtside (fun c hc => ?_) fun c hc => ?_
  · obtain ⟨e, he, rfl⟩ := List.mem_map.mp hc
    exact (List.mem_filter.mp he).2
  · obtain ⟨e, he, rfl⟩ := List.mem_map.mp hc
    simpa using (List.mem_filter.mp he).2

end OrderedMap

/-! ## Books -/

/-- A commission says that a signup or a purchase triggered it. -/
def Event.Attributed (e : Event) : Prop :=
  e.isReport = true → e.triggeredBy = some .signup ∨ e.triggeredBy = some .purchase

/-- What an attributed event adds to the commission is a part that signups earned and a part that
purchases earned. -/
theorem Event.Attributed.commission {e : Event} (h : e.Attributed) :
    (PromoterTotals.ofEvent e).value .commission =
      (PromoterTotals.ofEvent e).value .throughSignups +
        (PromoterTotals.ofEvent e).value .throughPurchases := by
  cases hkind : e.kind with
  | signup => simp [PromoterTotals.ofEvent, PromoterTotals.value, PromoterTotals.zero, hkind]
  | purchase => simp [PromoterTotals.ofEvent, PromoterTotals.value, PromoterTotals.zero, hkind]
  | commissionGenerated =>
    rcases h (decide_eq_true hkind) with htrigger | htrigger <;>
      simp [PromoterTotals.ofEvent, PromoterTotals.value, hkind, htrigger]

/-- The commission is the part that signups earned and the part that purchases earned. -/
def PromoterTotals.Splits (t : PromoterTotals) : Prop :=
  t.commission.units = t.throughSignups.units + t.throughPurchases.units

namespace Book

/-- Running totals and those of days agree, and each commission splits. -/
structure Agrees (b : Book) : Prop where
  promoters : b.promoters.SumsDays b.promoterDays
  links : b.links.SumsDays b.linkDays
  splits : ∀ k, (b.promoters.total k).Splits
  splitsOnDays : ∀ k, (b.promoterDays.total k).Splits

/-- The totals of promoters are those of the attributed events `es`, and the totals of links are
those of `fs`. -/
structure Collects (b : Book) (es fs : List Event) : Prop where
  attributed : ∀ e ∈ es, e.Attributed
  promoters : b.promoters.Tallies (fun _ => true)
    (es.map fun e => (e.promoterKey, PromoterTotals.ofEvent e))
  promoterDays : b.promoterDays.Tallies (fun _ => true)
    (es.map fun e => ((e.promoterKey, e.day), PromoterTotals.ofEvent e))
  links : b.links.Tallies (fun _ => true) (fs.map fun e => (e.linkKey, LinkTotals.ofEvent e))
  linkDays : b.linkDays.Tallies (fun _ => true)
    (fs.map fun e => ((e.linkKey, e.day), LinkTotals.ofEvent e))

variable {b b' : Book} {es fs es' fs' : List Event}

theorem splits_of_tallies {κ : Type} [Ranked κ] [DecidableEq κ] {m : OrderedMap κ PromoterTotals}
    {key : Event → κ} (hes : ∀ e ∈ es, e.Attributed)
    (h : m.Tallies (fun _ => true) (es.map fun e => (key e, PromoterTotals.ofEvent e))) (k : κ) :
    (m.total k).Splits := by
  have hsum : sumAt (es.map fun e => (key e, PromoterTotals.ofEvent e)) k PromoterField.commission =
      sumAt (es.map fun e => (key e, PromoterTotals.ofEvent e)) k PromoterField.throughSignups +
        sumAt (es.map fun e => (key e, PromoterTotals.ofEvent e)) k
          PromoterField.throughPurchases := by
    apply sumAt_eq_add
    intro c hc
    obtain ⟨e, he, rfl⟩ := List.mem_map.mp hc
    exact (hes e he).commission
  rw [← h.value_total k rfl, ← h.value_total k rfl, ← h.value_total k rfl] at hsum
  exact hsum

/-- Whichever events the totals are made of, they agree. -/
theorem Collects.agrees (h : b.Collects es fs) : b.Agrees where
  promoters := h.promoters.sumsDays h.promoterDays
  links := h.links.sumsDays h.linkDays
  splits := splits_of_tallies h.attributed h.promoters
  splitsOnDays := splits_of_tallies h.attributed h.promoterDays

theorem collects_empty : (∅ : Book).Collects [] [] :=
  ⟨List.forall_mem_nil _, OrderedMap.tallies_empty _, OrderedMap.tallies_empty _,
    OrderedMap.tallies_empty _, OrderedMap.tallies_empty _⟩

theorem Collects.add {e : Event} (h : b.Collects es fs) (he : e.Attributed)
    (hadd : b.add e = .ok b') : b'.Collects (es ++ [e]) (fs ++ [e]) := by
  obtain ⟨h₁, h₂, h₃, h₄⟩ := add?_eq_some.mp (add_eq_ok.mp hadd)
  refine ⟨List.forall_mem_append.mpr ⟨h.attributed, by simpa using he⟩, ?_, ?_, ?_, ?_⟩
  · simpa using h.promoters.add? h₁
  · simpa using h.promoterDays.add? h₂
  · simpa using h.links.add? h₃
  · simpa using h.linkDays.add? h₄

theorem Collects.merge {delta : Book} (h : b.Collects es fs) (hdelta : delta.Collects es' fs')
    (hmerge : b.merge delta = .ok b') : b'.Collects (es ++ es') (fs ++ fs') := by
  obtain ⟨h₁, h₂, h₃, h₄⟩ := merge_eq_ok.mp hmerge
  refine ⟨List.forall_mem_append.mpr ⟨h.attributed, hdelta.attributed⟩, ?_, ?_, ?_, ?_⟩
  · simpa using h.promoters.merge hdelta.promoters h₁
  · simpa using h.promoterDays.merge hdelta.promoterDays h₂
  · simpa using h.links.merge hdelta.links h₃
  · simpa using h.linkDays.merge hdelta.linkDays h₄

/-- A scope is replaced: its totals are now made of other events, and the rest as they were. A scope
may have links without their promoters, so the two lists part here. -/
theorem Collects.replaceScope {scope : Scope} {rebuilt : Book} {gs : List Event}
    (h : b.Collects es fs) (hrebuilt : rebuilt.Tallies scope gs) (hgs : ∀ e ∈ gs, e.Attributed) :
    (b.replaceScope scope rebuilt).Collects
      (gs.filter (fun e => scope.coversPromoter e.promoterKey) ++
        es.filter fun e => !scope.coversPromoter e.promoterKey)
      (gs.filter (fun e => scope.coversLink e.linkKey) ++
        fs.filter fun e => !scope.coversLink e.linkKey) where
  attributed := List.forall_mem_append.mpr
    ⟨fun e he => hgs e (List.mem_of_mem_filter he),
      fun e he => h.attributed e (List.mem_of_mem_filter he)⟩
  promoters := hrebuilt.promoters.patch_append h.promoters
  promoterDays := hrebuilt.promoterDays.patch_append h.promoterDays
  links := hrebuilt.links.patch_append h.links
  linkDays := hrebuilt.linkDays.patch_append h.linkDays

end Book

/-! ## Units of work -/

namespace WorkUnit

/-- What is staged after the events in `known` were logged: all events are attributed, no record
would generate a commission from another one, and the totals agree. -/
structure Consistent (known : List Event) (u : WorkUnit) : Prop where
  built : u.Built
  rules : ∀ rule ∈ u.context.rules, rule.validate = .ok ()
  attributed : ∀ e ∈ u.events, e.Attributed
  owes : ∀ f ∈ u.failures, f.Owes (known ++ u.events)
  delta : ∃ es fs, u.delta.Collects es fs

namespace Consistent

variable {known : List Event} {u u' : WorkUnit}

theorem start {c : Context} (hrules : ∀ rule ∈ c.rules, rule.validate = .ok ()) :
    (WorkUnit.start c).Consistent known where
  built := built_start c
  rules := hrules
  attributed := List.forall_mem_nil _
  owes := List.forall_mem_nil _
  delta := ⟨[], [], Book.collects_empty⟩

theorem mono {known' : List Event} (h : u.Consistent known) (hknown : known ⊆ known') :
    u.Consistent known' :=
  { h with
    owes := fun f hf => (h.owes f hf).mono <| List.append_subset.mpr
      ⟨List.Subset.trans hknown (List.subset_append_left _ _), List.subset_append_right _ _⟩ }

/-- Other parts of the unit may be changed, and records added. -/
theorem congr (h : u.Consistent known) (hedits : u.Edits u') (records : List Failure)
    (hrules : u'.context.rules = u.context.rules) (hevents : u'.events = u.events)
    (hdelta : u'.delta = u.delta) (hfailures : u'.failures = u.failures ++ records)
    (hrecords : ∀ f ∈ records, f.Owes (known ++ u.events)) : u'.Consistent known where
  built := h.built.edits hedits
  rules := hrules ▸ h.rules
  attributed := hevents ▸ h.attributed
  owes := by
    rw [hfailures, hevents]
    exact List.forall_mem_append.mpr ⟨h.owes, hrecords⟩
  delta := hdelta ▸ h.delta

/-- An attributed event is staged. -/
theorem stageEvent {e : Event} (h : u.Consistent known) (he : e.Attributed)
    (hstage : u.stageEvent? e = some u') : u'.Consistent known := by
  have hbuilt := h.built.edits (.single (.stageEvent hstage))
  obtain ⟨-, rfl⟩ := stageEvent?_eq_some hstage
  exact ⟨hbuilt, h.rules, List.forall_mem_append.mpr ⟨h.attributed, by simpa using he⟩,
    fun f hf => (h.owes f hf).mono (by simp), h.delta⟩

/-- An attributed event is counted. -/
theorem count {e : Event} {delta : Book} (h : u.Consistent known) (he : e.Attributed)
    (hadd : u.delta.add e = .ok delta) : { u with delta }.Consistent known := by
  obtain ⟨es, fs, hcollects⟩ := h.delta
  exact ⟨h.built.edits (.single (.setDelta delta)), h.rules, h.attributed, h.owes,
    _, _, hcollects.add he hadd⟩

end Consistent

end WorkUnit

namespace Staging

variable {known new : List Event} {config : Config} {e : Event} {depth : Depth}
  {allowed : RuleId → Effect → Prop} {s s' : Staging}

theorem consistent_recordError (h : s.unit.Consistent known) {effect : Option Effect}
    {event : Option EventId} (program : ProgramId) (promoter : PromoterId) (rule : Option RuleId)
    (origin : Origin) (error : Error) (depth : Depth)
    (howes : ∀ x, effect = some x → x.emits = true → ∃ e ∈ known ++ s.unit.events,
      event = some e.id ∧ (e.kind = .signup ∨ e.kind = .purchase)) :
    (s.recordError event program promoter rule effect origin error depth).unit.Consistent known :=
  h.congr (.single (.recordFailure _)) [_] rfl rfl rfl rfl fun _ hf =>
    List.mem_singleton.mp hf ▸ howes

/-- What rules do keeps a unit consistent, if those that generate commissions are for signups and
purchases. -/
theorem Does.consistent (step : s.Does config e depth allowed new s')
    (hkind : ∀ rule effect, allowed rule effect → effect.emits = true →
      e.kind = .signup ∨ e.kind = .purchase)
    (he : e ∈ known ++ s.unit.events) (h : s.unit.Consistent known) :
    s'.unit.Consistent known ∧ ∀ g ∈ new, g.Attributed := by
  have hedits := step.edits.unit
  cases step with
  | mark => exact ⟨h.congr hedits [] rfl rfl rfl (by simp) (by simp), by simp⟩
  | permit hpermit =>
    obtain ⟨held, permits, rfl⟩ := ensurePermit?_frame hpermit
    exact ⟨h.congr hedits [] rfl rfl rfl (by simp) (by simp), by simp⟩
  | reward hrule =>
    refine ⟨h.congr hedits [] rfl rfl rfl (by simp [Staging.reward, WorkUnit.stageCommission])
      (by simp), fun g hg _ => ?_⟩
    rw [List.mem_singleton.mp hg]
    rcases hkind _ _ hrule rfl with hsource | hsource
    · exact .inl (congrArg some hsource)
    · exact .inr (congrArg some hsource)
  | move => exact ⟨h.congr hedits [] rfl rfl rfl (by simp [mapUnit, WorkUnit.stageTransition])
      (by simp), by simp⟩
  | refuse refusal hrule =>
    refine ⟨consistent_recordError h _ _ _ _ _ _ ?_, by simp⟩
    rintro x ⟨⟩ hemits
    exact ⟨e, he, rfl, hkind _ _ hrule hemits⟩
  | fail error => exact ⟨consistent_recordError h _ _ _ _ _ _ (by simp), by simp⟩

theorem Handles.consistent (handles : s.Handles config e depth allowed new s')
    (hkind : ∀ rule effect, allowed rule effect → effect.emits = true →
      e.kind = .signup ∨ e.kind = .purchase)
    (he : e ∈ known ++ s.unit.events) (h : s.unit.Consistent known) :
    s'.unit.Consistent known ∧ ∀ g ∈ new, g.Attributed := by
  have hall := handles.keeps
    (I := fun s out => e ∈ known ++ s.unit.events ∧ s.unit.Consistent known ∧
      ∀ g ∈ out, g.Attributed)
    (fun step ⟨he, h, hout⟩ => by
      obtain ⟨h', hnew⟩ := step.consistent hkind he h
      exact ⟨step.events_eq ▸ he, h', List.forall_mem_append.mpr ⟨hout, hnew⟩⟩)
    [] ⟨he, h, List.forall_mem_nil _⟩
  exact hall.2

end Staging

/-! ## Handlers -/

/-- A handler that keeps units of work consistent, and answers with attributed events. -/
structure Handler.Careful (h : Handler) : Prop where
  fair : h.Fair
  consistent : ∀ {known : List Event} (calls : List Call) {c : Call} {s : Staging},
    s.unit.Consistent known → c.event ∈ known ++ s.unit.events → c.event.Attributed →
    (h.react calls c s).2.unit.Consistent known
  attributed : ∀ {known : List Event} (calls : List Call) {c : Call} {s : Staging},
    s.unit.Consistent known → c.event ∈ known ++ s.unit.events → c.event.Attributed →
    ∀ children, (h.react calls c s).1 = .ok children → ∀ g ∈ children, g.Attributed

theorem careful_aggregatesHandler : aggregatesHandler.Careful where
  fair := fair_aggregatesHandler
  consistent calls c s hs _ hc := by
    simp only [aggregatesHandler]
    split
    · rename_i delta hadd
      exact hs.count hc hadd
    · exact hs
  attributed calls c s _ _ _ children hchildren := by
    simp only [aggregatesHandler] at hchildren
    split at hchildren
    · cases hchildren
      exact List.forall_mem_nil _
    · cases hchildren

theorem consistent_rulesHandler (config : Config) {known : List Event} (calls : List Call)
    {c : Call} {s : Staging} (hs : s.unit.Consistent known)
    (hc : c.event ∈ known ++ s.unit.events) :
    ((rulesHandler config).react calls c s).2.unit.Consistent known ∧
      ∀ g ∈ ((rulesHandler config).react calls c s).1.toOption.getD [], g.Attributed :=
  (s.handles_react config calls c).consistent (fun _ _ => Staging.Offers.kind hs.rules) hc hs

theorem careful_rulesHandler (config : Config) : (rulesHandler config).Careful where
  fair := fair_rulesHandler config
  consistent calls _ _ hs hc _ := (consistent_rulesHandler config calls hs hc).1
  attributed calls _ _ hs hc _ children hchildren := by
    have hall := (consistent_rulesHandler config calls hs hc).2
    rwa [hchildren] at hall

namespace Script

theorem choose_mem {e : Event} {uses : List (Reaction × ℕ)} {r : Reaction}
    (h : (choose e uses).1 = some r) : r ∈ uses.map (·.1) := by
  induction uses with
  | nil => cases h
  | cons x uses ih =>
    simp only [choose] at h
    split at h
    · cases h
      exact List.mem_cons_self
    · exact List.mem_cons_of_mem _ (ih h)

theorem map_fst_choose (e : Event) (uses : List (Reaction × ℕ)) :
    (choose e uses).2.map (·.1) = uses.map (·.1) := by
  induction uses with
  | nil => rfl
  | cons x uses ih =>
    simp only [choose]
    split <;> simp [ih]

theorem map_fst_usesAfter (script : Script) (calls : List Call) :
    (script.usesAfter calls).map (·.1) = script.reactions := by
  have hfold : ∀ uses, (calls.foldl (fun uses c => (choose c.event uses).2) uses).map (·.1) =
      uses.map (·.1) := by
    induction calls with
    | nil => exact fun _ => rfl
    | cons c calls ih => exact fun uses => (ih _).trans (map_fst_choose c.event uses)
  rw [usesAfter, hfold, List.map_map]
  exact List.map_id _

/-- A script is careful if the events that it brings of its own are attributed. -/
theorem careful_handler {script : Script}
    (h : ∀ r ∈ script.reactions, ∀ es, r.response = .emit es → ∀ e ∈ es, e.Attributed) :
    script.handler.Careful where
  fair := script.fair_handler
  consistent calls c s hs _ _ := by
    simp only [handler]
    split
    · rename_i r _
      cases r.response <;> exact hs
    · exact hs
  attributed calls c s _ _ hc children hchildren := by
    simp only [handler] at hchildren
    split at hchildren
    · rename_i r hr
      have hmem := choose_mem hr
      rw [map_fst_usesAfter] at hmem
      cases hresponse : r.response with
      | fail error => simp [hresponse, respond] at hchildren
      | echo count =>
        simp only [hresponse, respond, Except.ok.injEq] at hchildren
        subst hchildren
        intro g hg
        obtain ⟨i, -, rfl⟩ := List.mem_map.mp hg
        exact hc
      | emit events =>
        simp only [hresponse, respond, Except.ok.injEq] at hchildren
        exact hchildren ▸ h r hmem events hresponse
      | nothing =>
        simp only [hresponse, respond, Except.ok.injEq] at hchildren
        exact hchildren ▸ List.forall_mem_nil _
    · cases hchildren
      exact List.forall_mem_nil _

end Script

/-! ## Cascades -/

namespace Cascade

variable {d : Dispatcher} {known : List Event}

theorem consistent_callHandler {h : Handler} (hh : h.Careful) (c : Cascade) (position : ℕ)
    {call : Call} (hc : c.staging.unit.Consistent known)
    (hmem : call.event ∈ known ++ c.staging.unit.events) (hcall : call.event.Attributed) :
    (c.callHandler position h call).1.staging.unit.Consistent known ∧
      ∀ g ∈ (c.callHandler position h call).2, g.Attributed := by
  have hunit := hh.consistent (callsOf position c.calls) hc hmem hcall
  have hanswer := hh.attributed (callsOf position c.calls) hc hmem hcall
  unfold callHandler
  split
  rename_i answer staging hreact
  rw [hreact] at hunit hanswer
  cases answer with
  | ok children => exact ⟨hunit, hanswer children rfl⟩
  | error error =>
    exact ⟨Staging.consistent_recordError hunit _ _ _ _ _ _ (by simp), List.forall_mem_nil _⟩

theorem consistent_callAll {hs : List Handler} (hhs : ∀ h ∈ hs, h.Careful) (c : Cascade)
    (position : ℕ) (call : Call) (hc : c.staging.unit.Consistent known)
    (hmem : call.event ∈ known ++ c.staging.unit.events) (hcall : call.event.Attributed) :
    (callAll call position hs c).1.staging.unit.Consistent known ∧
      ∀ g ∈ (callAll call position hs c).2, g.Attributed := by
  induction hs generalizing c position with
  | nil => exact ⟨hc, List.forall_mem_nil _⟩
  | cons h hs ih =>
    rw [List.forall_mem_cons] at hhs
    obtain ⟨hfirst, hnew⟩ := consistent_callHandler hhs.1 c position hc hmem hcall
    -- the event is still staged when the next handler is called
    have hstays := (edits_callHandler hhs.1.fair c position call).unit.events.subset
    have hmem' : call.event ∈ known ++ (c.callHandler position h call).1.staging.unit.events :=
      List.append_subset.mpr ⟨List.subset_append_left _ _,
        List.Subset.trans hstays (List.subset_append_right _ _)⟩ hmem
    obtain ⟨hrest, hmore⟩ := ih hhs.2 _ (position + 1) hfirst hmem'
    exact ⟨hrest, List.forall_mem_append.mpr ⟨hnew, hmore⟩⟩

theorem consistent_handleEvent (hd : ∀ h ∈ d.handlers, h.Careful) (depth : Depth) (c : Cascade)
    {e : Event} (hc : c.staging.unit.Consistent known) (he : e.Attributed) :
    (handleEvent d depth c e).1.staging.unit.Consistent known ∧
      ∀ g ∈ (handleEvent d depth c e).2, g.Attributed := by
  unfold handleEvent
  split
  · exact ⟨Staging.consistent_recordError hc _ _ _ _ _ _ (by simp), List.forall_mem_nil _⟩
  split
  · exact ⟨hc, List.forall_mem_nil _⟩
  · rename_i unit hunit
    have hstaged : e ∈ known ++ unit.events := by
      obtain ⟨-, rfl⟩ := WorkUnit.stageEvent?_eq_some hunit
      simp
    exact consistent_callAll hd (c.accept unit depth e) 0 ⟨e, depth⟩ (hc.stageEvent he hunit)
      hstaged he

end Cascade

/-- Whatever is dispatched to careful handlers, the unit of work stays consistent. -/
theorem Dispatcher.consistent_dispatchAt {d : Dispatcher} (hd : ∀ h ∈ d.handlers, h.Careful)
    {known : List Event} (depth : Depth) {e : Event} (staging : Staging) (calls : List CallRecord)
    (hu : staging.unit.Consistent known) (he : e.Attributed) :
    (d.dispatchAt depth e staging calls).staging.unit.Consistent known :=
  (Cascade.run_keeps
    (I := fun c queue => c.staging.unit.Consistent known ∧ ∀ e ∈ queue, e.Attributed)
    (fun c depth e rest ⟨hc, hqueue⟩ => by
      rw [List.forall_mem_cons] at hqueue
      obtain ⟨hc', hnew⟩ := Cascade.consistent_handleEvent hd depth c hc hqueue.1
      exact ⟨hc', List.forall_mem_append.mpr ⟨hqueue.2, hnew⟩⟩)
    ⟨hu, by simpa using he⟩).1

/-! ## The store -/

namespace Store

/-- The log is sound and all of it attributed, no record would generate a commission from a
commission, and the totals are made of some events. -/
structure Consistent (s : Store) : Prop where
  sound : s.Sound
  checked : s.Checked
  attributed : ∀ e ∈ s.facts, e.Attributed
  owes : ∀ f ∈ s.failures, f.Owes s.facts
  book : ∃ es fs, s.book.Collects es fs

namespace Consistent

variable {s s' : Store}

theorem empty : Store.empty.Consistent where
  sound := sound_empty
  checked := checked_empty
  attributed := List.forall_mem_nil _
  owes := List.forall_mem_nil _
  book := ⟨[], [], Book.collects_empty⟩

/-- A change of other parts of the store. -/
theorem congr (h : s.Consistent) (hlog : s'.log = s.log) (hindex : s'.index = s.index)
    (hfailures : s'.failures = s.failures) (hbook : s'.book = s.book) (hchecked : s'.Checked) :
    s'.Consistent := by
  have hfacts : s'.facts = s.facts := by rw [Store.facts, hlog, Store.facts]
  refine ⟨h.sound.grows (.alter hlog hindex), hchecked, hfacts ▸ h.attributed, ?_, hbook ▸ h.book⟩
  rw [hfailures, hfacts]
  exact h.owes

theorem commit {u : WorkUnit} (h : s.Consistent) (hu : u.Consistent s.facts) (now : Instant) :
    (s.commit u now).2.Consistent := by
  have hsound := h.sound.grows (.commit hu.built now)
  have hchecked := Store.Checked.change h.checked (.commit u now)
  rcases s.commit_store u now with ⟨n, hstore⟩ | ⟨-, book, hmerge, hstore⟩
  · rw [hstore]
    exact h.congr rfl rfl rfl rfl h.checked
  · rw [hstore] at hsound hchecked ⊢
    obtain ⟨es, fs, hold⟩ := h.book
    obtain ⟨es', fs', hnew⟩ := hu.delta
    refine ⟨hsound, hchecked, ?_, owes_write h.owes hu.owes book now, ?_⟩
    · rw [facts_write]
      exact List.forall_mem_append.mpr ⟨h.attributed, hu.attributed⟩
    · rw [book_write]
      exact ⟨_, _, hold.merge hnew hmerge⟩

/-- The totals of a scope may be replaced by those of any events of the log, and whatever came
later is added. -/
theorem swap {scope : Scope} {book : Book} {asOf count : ℕ} (h : s.Consistent)
    (hbook : book = ∅ ∨ book.Tallies scope (s.facts.take asOf))
    (hstore : s.replaceTotals scope book asOf = .ok (count, s')) : s'.Consistent := by
  obtain ⟨rebuilt, hadd, -, rfl⟩ := replaceTotals_eq_ok.mp hstore
  have htallies : ∃ es, (∀ e ∈ es, e.Attributed) ∧ rebuilt.Tallies scope es := by
    rcases hbook with rfl | hbook
    · refine ⟨_, fun e he => ?_, Book.tallies_of_addAll_empty hadd⟩
      exact h.attributed e (List.drop_subset _ _ (List.mem_of_mem_filter he))
    · exact ⟨s.facts, h.attributed, hbook.replay hadd⟩
  obtain ⟨gs, hgs, hrebuilt⟩ := htallies
  obtain ⟨es, fs, hold⟩ := h.book
  exact ⟨h.sound.grows (.alter rfl rfl), h.checked, h.attributed, h.owes,
    _, _, hold.replaceScope hrebuilt hgs⟩

end Consistent

end Store

namespace Service

variable {s : Service}

/-- All handlers keep units of work consistent. -/
def Careful (s : Service) : Prop := ∀ h ∈ s.extra, h.Careful

theorem Careful.handlers (hs : s.Careful) : ∀ h ∈ s.dispatcher.handlers, h.Careful := by
  intro h hmem
  rcases List.mem_cons.mp hmem with rfl | hmem
  · exact careful_aggregatesHandler
  rcases List.mem_cons.mp hmem with rfl | hmem
  · exact careful_rulesHandler s.config
  · exact hs h hmem

theorem attributed_of_accept {e : Event} (h : accept e = .ok ()) : e.Attributed := fun hreport =>
  (kind_ne_of_accept h (of_decide_eq_true hreport)).elim

/-- With careful handlers, whatever a service does to the store keeps the totals made of events. -/
theorem maintains_consistent (hs : s.Careful) :
    s.Maintains (fun _ => True) (fun w => w.store.Consistent)
      fun w u cs => u.Consistent w.store.facts ∧ ∀ c ∈ cs, c.event.Attributed where
  numbered h := h.sound.numbered
  aside h _ hw := h ▸ hw
  disturb _ _ hw := hw.congr rfl rfl rfl rfl hw.checked
  putRule {_ _ store} h hw := by
    have hchecked : store.Checked := Store.Checked.change hw.checked (.putRule h)
    obtain ⟨-, rules, rfl, -⟩ := Store.putRule_eq_ok h
    exact hw.congr rfl rfl rfl rfl hchecked
  putCircle h hw := by
    rw [Store.putCircle_eq_ok h]
    exact hw.congr rfl rfl rfl rfl hw.checked
  assignCircle h hw := by
    rw [(Store.assignCircle_eq_ok h).2]
    exact hw.congr rfl rfl rfl rfl hw.checked
  swap hbook h hw := by
    refine hw.swap ?_ h
    by_cases hbatch : s.config.batchSize = 0
    · exact .inl (hbook.empty hbatch)
    · exact .inr (hbook.tallies hbatch)
  later h _ hu := ⟨hu.1.mono h.later.facts.subset, hu.2⟩
  start k hw := ⟨.start fun r hr => hw.checked r (List.mem_of_mem_filter hr), List.forall_mem_nil _⟩
  enter hw haccept _ := ⟨.start fun r hr => hw.checked r (List.mem_of_mem_filter hr),
    by simpa using attributed_of_accept haccept⟩
  dispatch {w u c cs staging} _ hu hstaging := by
    obtain ⟨hunit, hcalls⟩ := hu
    rw [List.forall_mem_cons] at hcalls
    have hedits := Dispatcher.edits_dispatchAt (fun h hh => (hs.handlers h hh).fair) c.depth c.event
      ⟨u, w.permits, w.ids, w.now⟩ w.calls
    have hdone := Dispatcher.consistent_dispatchAt hs.handlers c.depth
      ⟨u, w.permits, w.ids, w.now⟩ w.calls hunit hcalls.1
    rw [hstaging] at hedits hdone
    exact ⟨hedits.ids, hdone, hcalls.2⟩
  fire {w u f e rule effect answer staging} hw hf he heffect hu hfire := by
    obtain ⟨w₀, h₀, hfollows₀, hstored⟩ := hf
    obtain ⟨w₁, h₁, hfollows₁, hsource⟩ := he
    have hhandles := Staging.handles_fire ⟨u, w.permits, w.ids, w.now⟩ s.config e f.depth rule
      effect (fun _ x => x = effect) rfl
    have hkind : effect.emits = true → e.kind = .signup ∨ e.kind = .purchase :=
      (h₀.owes f hstored).kind hsource h₁.sound.located hfollows₀.later hfollows₁.later
        hw.sound.distinct heffect
    have hlogged : e ∈ w.store.facts := hfollows₁.later.facts.subset hsource.mem_facts
    obtain ⟨hunit, hnew⟩ := hhandles.consistent (fun _ x hx hemits => hkind (hx ▸ hemits))
      (List.mem_append_left _ hlogged) hu.1
    have hids := hhandles.ids_le
    rw [hfire] at hunit hnew hids
    refine ⟨hids, ?_⟩
    rintro emitted rfl
    exact ⟨hunit, by simpa [Except.toOption] using hnew⟩
  call {w u name position h f e calls answer staging} hw he hu _ hfind hreact := by
    obtain ⟨w₁, _, hfollows, hsource⟩ := he
    have hlogged : e ∈ w.store.facts := hfollows.later.facts.subset hsource.mem_facts
    have hcareful := hs.handlers h (Dispatcher.mem_of_find? hfind).1
    have hmem : e ∈ w.store.facts ++ u.events := List.mem_append_left _ hlogged
    have hattributed := hw.attributed e hlogged
    have hids := (hcareful.fair calls ⟨e, f.depth⟩ ⟨u, w.permits, w.ids, w.now⟩).ids
    have hunit := hcareful.consistent calls (c := ⟨e, f.depth⟩)
      (s := ⟨u, w.permits, w.ids, w.now⟩) hu.1 hmem hattributed
    have hanswer := hcareful.attributed calls (c := ⟨e, f.depth⟩)
      (s := ⟨u, w.permits, w.ids, w.now⟩) hu.1 hmem hattributed
    rw [hreact] at hids hunit hanswer
    refine ⟨hids, fun children hchildren => ⟨hunit, ?_⟩⟩
    simpa using hanswer children hchildren
  demote {w u error staging} _ hu hstaging := by
    have hedits := (⟨u, w.permits, w.ids, w.now⟩ : Staging).edits_demoteTransitions error
    obtain ⟨records, ids, hframe, hids, hrecords⟩ :=
      (⟨u, w.permits, w.ids, w.now⟩ : Staging).demoteTransitions_frame error w.now
    rw [hframe] at hedits hstaging
    subst hstaging
    exact ⟨hids, hu.1.congr hedits.unit records rfl rfl rfl rfl (hrecords.owes _),
      List.forall_mem_nil _⟩
  resolve failure hu :=
    ⟨hu.1.congr (.single (.resolveFailure failure)) [] rfl rfl rfl (List.append_nil _).symm
      (List.forall_mem_nil _), hu.2⟩
  attempt failure hu :=
    ⟨hu.1.congr (.single (.recordAttempt failure)) [] rfl rfl rfl (List.append_nil _).symm
      (List.forall_mem_nil _), hu.2⟩
  move {_ u k _ _ t} _ hu :=
    ⟨hu.1.congr (.head (.holdPermit k) (.single (.stageTransition ⟨t, none, none, 0⟩))) [] rfl rfl
      rfl (List.append_nil _).symm (List.forall_mem_nil _), hu.2⟩
  commit {w _} hu hw := hw.commit hu.1 w.now

end Service

namespace Fleet

/-- In every state that services reach over one store, whatever is asked of them and however this
overlaps, the totals of every promoter and link are the exact sums of those of its days, there is a
total exactly where there is a day, and every commission is the part that signups earned and the
part that purchases earned. -/
theorem totals_sum_days {services : List (Service × Instant)}
    (hcareful : ∀ m ∈ services, m.1.Careful) {ids : IdSupply} {f : Fleet}
    (hrun : (start services ids).Reaches f) : f.store.book.Agrees := by
  have hstart : (start services ids).Holds (fun _ => True) fun w => w.store.Consistent :=
    holds_start (fun m hm => ⟨_, Service.maintains_consistent (hcareful m hm)⟩)
      fun _ hstore _ => hstore ▸ Store.Consistent.empty
  have hholds := hrun.holds hstart fun _ _ => trivial
  let w : World :=
    { World.start ⟨0, 0, by decide, by decide, by decide⟩ f.ids with store := f.store }
  obtain ⟨es, fs, hcollects⟩ := (hholds.shared w rfl rfl).book
  exact hcollects.agrees

/-- A rule rewards two signups on different days, and a handler has the first one taken for two:
the commission of fifteen is ten on one day and five on the other. -/
theorem totals_of_two_days : ∃ (services : List (Service × Instant)) (f : Fleet),
    (∀ m ∈ services, m.1.Careful) ∧ (start services ⟨100⟩).Reaches f ∧
    (f.store.book.promoters.total ⟨⟨3⟩, ⟨4⟩⟩).commission.units = 150000 ∧
    (f.store.book.promoterDays.days ⟨⟨3⟩, ⟨4⟩⟩).map (·.commission.units) = [100000, 50000] ∧
    f.store.book.Agrees := by
  let now : Instant := ⟨0, 0, by decide, by decide, by decide⟩
  let e : Event := .signup ⟨1⟩ ⟨2⟩ ⟨3⟩ ⟨4⟩ ⟨5⟩ ⟨6⟩ now
  let rule : Rule := ⟨⟨7⟩, ⟨3⟩, "reward", .signup, none, [],
    .generateCommission (.fixed ⟨50000, by decide, by decide⟩), true⟩
  let s : Service :=
    ⟨.default, [Script.handler ⟨"echo", [⟨none, some .signup, some 1, .echo 1⟩]⟩]⟩
  have hcareful : ∀ m ∈ [(s, now)], m.1.Careful := by
    intro m hm h hh
    rw [List.mem_singleton.mp hm] at hh
    rw [List.mem_singleton.mp hh]
    exact Script.careful_handler (by simp)
  let requests : List Request := [.putRule rule, .publish e,
    .publish { e with id := ⟨9⟩, occurredAt := ⟨86400, 0, by decide, by decide, by decide⟩ }]
  have htotal : ((s.afterEach (.start now ⟨100⟩) requests).store.book.promoters.total
      ⟨⟨3⟩, ⟨4⟩⟩).commission.units = 150000 := by decide +kernel
  have hdays : ((s.afterEach (.start now ⟨100⟩) requests).store.book.promoterDays.days
      ⟨⟨3⟩, ⟨4⟩⟩).map (·.commission.units) = [100000, 50000] := by decide +kernel
  obtain ⟨tasks, hrun⟩ := Service.reaches_afterEach s (.start now ⟨100⟩) [] requests
  generalize s.afterEach (.start now ⟨100⟩) requests = w at hrun htotal hdays
  have hreach := @Reaches.member (start [(s, now)] ⟨100⟩) [] [] s _ _ rfl hrun
  exact ⟨_, _, hcareful, hreach, htotal, hdays, totals_sum_days hcareful hreach⟩

end Fleet

end Referral
