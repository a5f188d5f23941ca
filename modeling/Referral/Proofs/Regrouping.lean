import Referral.Proofs.Growth
import Referral.Proofs.Limits
import Referral.Proofs.Recording
import Referral.Proofs.Upkeep

/-!
# Adding up in any order and in any grouping

Where no event takes anything off a total, the sums of some of the events are at most those of all of
them. So a book of all events exists exactly if their exact sums are in range, whatever lies
between: the events may be added in any order, or each unit of them may be added up for itself and
merged, and the totals come out the same or leave their range just as well.
-/

namespace Referral

/-! ## Sums between zero and a sum in range -/

/-- Totals whose fields can hold every number from zero up to one that they hold. -/
class Downward (ν : Type) [Summable ν] [Measured ν] : Prop where
  exists_add? : ∀ a b bound : ν, (∀ f, 0 ≤ value a f + value b f) →
    (∀ f, value a f + value b f ≤ value bound f) → ∃ sum, Summable.add? a b = some sum

theorem Count.holds_of_le {n : ℤ} {bound : Count} (hzero : 0 ≤ n) (hle : n ≤ bound.toNat) :
    Count.Holds n := by
  have hlt := bound.toNat_lt
  unfold Count.Holds
  omega

theorem Money.holds_of_le {n : ℤ} {bound : Money} (hzero : 0 ≤ n) (hle : n ≤ bound.units) :
    Money.Holds n := by
  have hupper := bound.upper
  unfold Money.Holds
  omega

instance : Downward PromoterTotals where
  exists_add? a b bound hzero hle := by
    rw [← Option.isSome_iff_exists, Limited.add?_isSome_iff]
    intro f
    have hf := hle f
    cases f with
    | signups => exact Count.holds_of_le (hzero .signups) hf
    | purchases => exact Count.holds_of_le (hzero .purchases) hf
    | revenue => exact Money.holds_of_le (hzero .revenue) hf
    | commission => exact Money.holds_of_le (hzero .commission) hf
    | throughSignups => exact Money.holds_of_le (hzero .throughSignups) hf
    | throughPurchases => exact Money.holds_of_le (hzero .throughPurchases) hf

instance : Downward LinkTotals where
  exists_add? a b bound hzero hle := by
    rw [← Option.isSome_iff_exists, Limited.add?_isSome_iff]
    intro f
    have hf := hle f
    cases f with
    | signups => exact Count.holds_of_le (hzero .signups) hf
    | purchases => exact Count.holds_of_le (hzero .purchases) hf
    | commission => exact Money.holds_of_le (hzero .commission) hf

namespace OrderedMap

variable {κ ν : Type} [Ranked κ] [DecidableEq κ] [Summable ν] [Measured ν]
variable {m n : OrderedMap κ ν} {p : κ → Bool} {cs ds : List (κ × ν)}

omit [Ranked κ] in
theorem sumAt_perm (h : cs.Perm ds) (k : κ) (f : Measured.Field ν) :
    sumAt cs k f = sumAt ds k f :=
  ((h.filter _).map _).sum_eq

/-- What is tallied does not depend on the order. -/
theorem Tallies.perm (h : m.Tallies p cs) (hperm : cs.Perm ds) : m.Tallies p ds :=
  h.congr (fun _ _ => (hperm.map _).mem_iff) fun k _ f => sumAt_perm hperm k f

/-- One more contribution can be added if some map holds the exact sums with it and with further
contributions that take nothing off. -/
theorem Tallies.exists_add?_of_append [Downward ν] {k : κ} {v : ν} (h : m.Tallies p cs)
    (hn : n.Tallies p (cs ++ (k, v) :: ds)) (hk : p k = true)
    (hcs : ∀ c ∈ cs, ∀ f, 0 ≤ value c.2 f) (hv : ∀ f, 0 ≤ value v f)
    (hds : ∀ c ∈ ds, ∀ f, 0 ≤ value c.2 f) : ∃ m', m.add? k v = some m' := by
  have hsum : ∃ sum, Summable.add? (m.total k) v = some sum := by
    refine Downward.exists_add? _ _ (n.total k) (fun f => ?_) fun f => ?_
    · rw [h.value_total k hk]
      exact add_nonneg (sumAt_nonneg hcs k f) (hv f)
    · have hrest := sumAt_nonneg hds k f
      rw [h.value_total k hk, hn.value_total k hk, sumAt_append, sumAt_cons, if_pos rfl]
      dsimp only
      omega
  obtain ⟨sum, hsum⟩ := hsum
  exact ⟨m.insert k sum, by simp [OrderedMap.add?, hsum]⟩

end OrderedMap

namespace Book

variable {b b' : Book} {s : Scope} {es fs : List Event}

/-- A book tallies events in any order. -/
theorem Tallies.perm (h : b.Tallies s es) (hperm : es.Perm fs) : b.Tallies s fs :=
  ⟨h.promoters.perm (hperm.map _), h.promoterDays.perm (hperm.map _),
    h.links.perm (hperm.map _), h.linkDays.perm (hperm.map _)⟩

/-- The next event can be added if the sums of all events are in range. -/
theorem Tallies.exists_add_of_append {e : Event} (h : b.Tallies .all es)
    (hall : InRange (es ++ e :: fs)) (hnonneg : ∀ x ∈ es ++ e :: fs, x.NonNegative) :
    ∃ b', b.add e = .ok b' := by
  obtain ⟨n, h₁, h₂, h₃, h₄⟩ := hall
  have he : e.NonNegative := hnonneg e (by simp)
  have hes : ∀ x ∈ es, x.NonNegative := fun x hx => hnonneg x (by simp [hx])
  have hfs : ∀ x ∈ fs, x.NonNegative := fun x hx => hnonneg x (by simp [hx])
  simp only [List.map_append, List.map_cons] at h₁ h₂ h₃ h₄
  obtain ⟨p, hp⟩ := h.promoters.exists_add?_of_append h₁ rfl
    (List.forall_mem_map.mpr fun x hx => (hes x hx).promoter) he.promoter
    (List.forall_mem_map.mpr fun x hx => (hfs x hx).promoter)
  obtain ⟨pd, hpd⟩ := h.promoterDays.exists_add?_of_append h₂ rfl
    (List.forall_mem_map.mpr fun x hx => (hes x hx).promoter) he.promoter
    (List.forall_mem_map.mpr fun x hx => (hfs x hx).promoter)
  obtain ⟨l, hl⟩ := h.links.exists_add?_of_append h₃ rfl
    (List.forall_mem_map.mpr fun x hx => (hes x hx).link) he.link
    (List.forall_mem_map.mpr fun x hx => (hfs x hx).link)
  obtain ⟨ld, hld⟩ := h.linkDays.exists_add?_of_append h₄ rfl
    (List.forall_mem_map.mpr fun x hx => (hes x hx).link) he.link
    (List.forall_mem_map.mpr fun x hx => (hfs x hx).link)
  exact ⟨⟨p, pd, l, ld⟩, add_eq_ok.mpr (add?_eq_some.mpr ⟨hp, hpd, hl, hld⟩)⟩

/-- Further events can be added one after the other if the sums of all events are in range. -/
theorem Tallies.exists_addAll (h : b.Tallies .all es) (hall : InRange (es ++ fs))
    (hnonneg : ∀ x ∈ es ++ fs, x.NonNegative) : ∃ b', b.addAll fs = .ok b' := by
  induction fs generalizing b es with
  | nil => exact ⟨b, rfl⟩
  | cons f fs ih =>
    obtain ⟨b₁, hb₁⟩ := h.exists_add_of_append hall hnonneg
    rw [List.append_cons] at hall hnonneg
    obtain ⟨b', hb'⟩ := ih (h.add hb₁) hall hnonneg
    exact ⟨b', by rw [addAll_cons, hb₁]; exact hb'⟩

/-! ## Folding events and merging books -/

/-- Adding up some events gives the book that tallies them, if there is one. -/
theorem ofEvents_eq_ok_iff (hnonneg : ∀ e ∈ es, e.NonNegative) :
    ofEvents es = .ok b ↔ b.Tallies .all es := by
  refine ⟨tallies_of_addAll_empty, fun h => ?_⟩
  have hrange : InRange ([] ++ es) := ⟨b, h⟩
  obtain ⟨b', hb'⟩ := (tallies_empty .all).exists_addAll hrange hnonneg
  have hsame : b' = b := (tallies_of_addAll_empty hb').eq_of_all h
  exact hsame ▸ hb'

/-- The order of the events does not matter. -/
theorem ofEvents_perm (hnonneg : ∀ e ∈ es, e.NonNegative) (hperm : es.Perm fs) :
    ofEvents es = .ok b ↔ ofEvents fs = .ok b := by
  have hnonneg' : ∀ e ∈ fs, e.NonNegative := fun e he => hnonneg e (hperm.mem_iff.mpr he)
  rw [ofEvents_eq_ok_iff hnonneg, ofEvents_eq_ok_iff hnonneg']
  exact ⟨fun h => h.perm hperm, fun h => h.perm hperm.symm⟩

/-- The first of some events can be added up if all of them can. -/
theorem exists_ofEvents_left (h : ofEvents (es ++ fs) = .ok b) : ∃ b', ofEvents es = .ok b' := by
  unfold ofEvents at h ⊢
  rw [addAll_append] at h
  cases hes : empty.addAll es with
  | ok b' => exact ⟨b', rfl⟩
  | error error =>
    rw [hes] at h
    cases h

/-- Events can be added up exactly if the two parts of them can and the books of these can be
merged; the merged book is that of all events. -/
theorem ofEvents_append (hnonneg : ∀ e ∈ es ++ fs, e.NonNegative) :
    ofEvents (es ++ fs) = .ok b ↔
      ∃ bes bfs, ofEvents es = .ok bes ∧ ofEvents fs = .ok bfs ∧ bes.merge bfs = .ok b := by
  constructor
  · intro h
    have hb := (ofEvents_eq_ok_iff hnonneg).mp h
    obtain ⟨bes, hbes⟩ := exists_ofEvents_left h
    -- the second part comes first in another order of the events
    obtain ⟨bfs, hbfs⟩ := exists_ofEvents_left
      ((ofEvents_perm hnonneg List.perm_append_comm).mp h)
    have hes : bes.Tallies .all es := tallies_of_addAll_empty hbes
    have hfs : bfs.Tallies .all fs := tallies_of_addAll_empty hbfs
    obtain ⟨b', hmerge⟩ := hes.exists_merge hfs ⟨b, hb⟩
    have hsame : b' = b := (hes.merge hfs hmerge).eq_of_all hb
    exact ⟨bes, bfs, hbes, hbfs, hsame ▸ hmerge⟩
  · rintro ⟨bes, bfs, hbes, hbfs, hmerge⟩
    have hes : bes.Tallies .all es := tallies_of_addAll_empty hbes
    exact (ofEvents_eq_ok_iff hnonneg).mpr (hes.merge (tallies_of_addAll_empty hbfs) hmerge)

/-- The book into which those of some units of events are merged one after the other. -/
def mergeUnits (b : Book) : List (List Event) → Except Error Book
  | [] => .ok b
  | unit :: units => do
    let delta ← ofEvents unit
    let b ← b.merge delta
    b.mergeUnits units

theorem mergeUnits_cons_eq_ok {unit : List Event} {units : List (List Event)} :
    b.mergeUnits (unit :: units) = .ok b' ↔
      ∃ delta next, ofEvents unit = .ok delta ∧ b.merge delta = .ok next ∧
        next.mergeUnits units = .ok b' := by
  simp only [mergeUnits, bind, Except.bind]
  cases ofEvents unit with
  | error error => simp
  | ok delta =>
    cases hmerge : b.merge delta <;> simp [hmerge]

/-- Merging unit by unit into the book of the events before gives the book of all. -/
theorem ofEvents_append_flatten {units : List (List Event)} (hes : ofEvents es = .ok b)
    (hnonneg : ∀ e ∈ es ++ units.flatten, e.NonNegative) :
    ofEvents (es ++ units.flatten) = .ok b' ↔ b.mergeUnits units = .ok b' := by
  induction units generalizing b es with
  | nil => rw [List.flatten_nil, List.append_nil, hes]; rfl
  | cons unit units ih =>
    rw [List.flatten_cons, ← List.append_assoc] at hnonneg ⊢
    have hfirst : ∀ e ∈ es ++ unit, e.NonNegative := fun e he =>
      hnonneg e (List.mem_append_left _ he)
    rw [mergeUnits_cons_eq_ok]
    constructor
    · intro h
      obtain ⟨next, hnext⟩ := exists_ofEvents_left h
      obtain ⟨bes, delta, hbes, hdelta, hmerge⟩ := (ofEvents_append hfirst).mp hnext
      cases hes.symm.trans hbes
      exact ⟨delta, next, hdelta, hmerge, (ih hnext hnonneg).mp h⟩
    · rintro ⟨delta, next, hdelta, hmerge, hrest⟩
      have hnext := (ofEvents_append hfirst).mpr ⟨b, delta, hes, hdelta, hmerge⟩
      exact (ih hnext hnonneg).mpr hrest

/-! ## Sums out of range -/

/-- Events that cannot be added one after the other are refused for a sum out of range. -/
theorem addAll_eq_error {error : Error} (h : b.addAll es = .error error) :
    ∃ name, error = Error.overflow name := by
  induction es generalizing b with
  | nil => cases h
  | cons e es ih =>
    rw [addAll_cons, add] at h
    cases hadd : b.add? e with
    | some next =>
      rw [hadd] at h
      exact ih h
    | none =>
      rw [hadd] at h
      cases h
      exact ⟨_, rfl⟩

/-- Units that cannot be merged one after the other are refused for a sum out of range. -/
theorem mergeUnits_eq_error {units : List (List Event)} {error : Error}
    (h : b.mergeUnits units = .error error) : ∃ name, error = Error.overflow name := by
  induction units generalizing b with
  | nil => cases h
  | cons unit units ih =>
    simp only [mergeUnits, bind, Except.bind] at h
    split at h
    · rename_i hunit
      cases h
      exact addAll_eq_error hunit
    split at h
    · rename_i hmerge
      cases h
      exact merge_eq_error hmerge
    · exact ih h

/-- Two ways to a book that come out with the same books and fail for sums out of range only are
refused for such a sum on the same inputs. -/
theorem overflows_iff_of_eq_ok_iff {left right : Except Error Book}
    (hleft : ∀ error, left = .error error → ∃ name, error = Error.overflow name)
    (hright : ∀ error, right = .error error → ∃ name, error = Error.overflow name)
    (hok : ∀ b, left = .ok b ↔ right = .ok b) :
    (∃ name, left = .error (.overflow name)) ↔ ∃ name, right = .error (.overflow name) := by
  have hsplit : ∀ {answer : Except Error Book},
      (∀ error, answer = .error error → ∃ name, error = Error.overflow name) →
      ((∃ name, answer = .error (.overflow name)) ↔ ¬ ∃ b, answer = .ok b) := by
    intro answer hanswer
    cases answer with
    | ok b => simp
    | error error =>
      obtain ⟨name, rfl⟩ := hanswer error rfl
      simp
  rw [hsplit hleft, hsplit hright]
  simp only [hok]

/-- Without negative amounts, the book of some events is there exactly if the books of its two parts
are and can be merged; it does not depend on the order of the events; and it is the one that merging
them unit by unit gives, whatever the units are. A sum leaves its range in either way or in none. -/
theorem ofEvents_regrouped (hnonneg : ∀ e ∈ es ++ fs, e.NonNegative) :
    (∀ b, ofEvents (es ++ fs) = .ok b ↔
      ∃ bes bfs, ofEvents es = .ok bes ∧ ofEvents fs = .ok bfs ∧ bes.merge bfs = .ok b) ∧
    (∀ gs, es.Perm gs → ∀ b, ofEvents es = .ok b ↔ ofEvents gs = .ok b) ∧
    (∀ units : List (List Event), es.Perm units.flatten →
      (∀ b, ofEvents es = .ok b ↔ (∅ : Book).mergeUnits units = .ok b) ∧
      ((∃ name, ofEvents es = .error (.overflow name)) ↔
        ∃ name, (∅ : Book).mergeUnits units = .error (.overflow name))) := by
  have hes : ∀ e ∈ es, e.NonNegative := fun e he => hnonneg e (List.mem_append_left _ he)
  refine ⟨fun b => ofEvents_append hnonneg, fun gs hperm b => ofEvents_perm hes hperm,
    fun units hperm => ?_⟩
  have hunits : ∀ e ∈ units.flatten, e.NonNegative := fun e he =>
    hes e (hperm.mem_iff.mpr he)
  have hnil : ofEvents [] = .ok ∅ := rfl
  have hok : ∀ b, ofEvents es = .ok b ↔ (∅ : Book).mergeUnits units = .ok b := fun b =>
    (ofEvents_perm hes hperm).trans (ofEvents_append_flatten hnil hunits)
  exact ⟨hok, overflows_iff_of_eq_ok_iff (fun _ => addAll_eq_error)
    (fun _ => mergeUnits_eq_error) hok⟩

/-- A signup and a purchase are added up together and in two units. -/
theorem ofEvents_signup_purchase :
    let now : Instant := ⟨0, 0, by decide, by decide, by decide⟩
    let signup := Event.signup ⟨1⟩ ⟨2⟩ ⟨3⟩ ⟨4⟩ ⟨5⟩ ⟨6⟩ now
    let purchase := Event.purchase ⟨7⟩ ⟨2⟩ ⟨3⟩ ⟨4⟩ ⟨5⟩ ⟨8⟩ (some (Money.clamp 990000)) now
    (∀ e ∈ [signup] ++ [purchase], e.NonNegative) ∧
    ∃ b bes bfs, ofEvents [signup, purchase] = .ok b ∧ ofEvents [signup] = .ok bes ∧
      ofEvents [purchase] = .ok bfs ∧ bes.merge bfs = .ok b := by
  intro now signup purchase
  have hnonneg : ∀ e ∈ [signup] ++ [purchase], e.NonNegative := by
    simp only [List.mem_append, List.mem_singleton]
    rintro e (rfl | rfl) <;> exact Event.nonNegative_of_validate (by decide +kernel)
  have hok : (ofEvents [signup, purchase]).isOk = true := by decide +kernel
  refine ⟨hnonneg, ?_⟩
  cases hb : ofEvents [signup, purchase] with
  | error error =>
    rw [hb] at hok
    cases hok
  | ok b =>
    obtain ⟨bes, bfs, hes, hfs, hmerge⟩ := ((ofEvents_regrouped hnonneg).1 b).mp hb
    exact ⟨b, bes, bfs, rfl, hes, hfs, hmerge⟩

end Book

end Referral
