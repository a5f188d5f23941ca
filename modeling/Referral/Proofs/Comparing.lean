import Referral.Matching
import Referral.Proofs.Reading

/-!
# Comparing values with written amounts

Five operators compare numbers. A value has a number if its ten-thousandths are in range, and a text
under a parameter of texts has the number that it writes; the value of a condition has one if it
writes an amount. Where both sides have numbers, each operator answers as these compare, and where
one has none, all operators fail for the same reason, the side of the observed value first. Only
equality of a text goes by its characters.
-/

namespace Referral

/-! ## Numbers of texts and of values -/

/-- A text writes a number that amounts can hold: it is that of a decimal between blanks. -/
def Money.Written (cs : List Char) (x : ℚ) : Prop :=
  ∃ n : Decimal, Text.Strips cs n.text ∧ n.places ≤ 4 ∧
    |n.value| * 10000 ≤ 9223372036854775807 ∧ n.value = x

theorem Money.value_eq_iff {m : Money} {x : ℚ} : m.value = x ↔ (m.units : ℚ) = x * 10000 := by
  rw [value, div_eq_iff (by norm_num)]

/-- The texts that write numbers are those that are read. -/
theorem Money.written_iff {cs : List Char} {x : ℚ} :
    Written cs x ↔ ∃ m, read? cs = some m ∧ m.value = x := by
  have hread : ∀ m, read? cs = some m ↔ read cs = .ok m := fun m => by
    unfold read?
    cases read cs <;> simp [Except.toOption]
  simp only [hread]
  constructor
  · rintro ⟨n, hstrips, hplaces, hsize, rfl⟩
    obtain ⟨m, hm⟩ := (exists_read_iff hstrips).mpr ⟨hplaces, hsize⟩
    exact ⟨m, hm, value_eq_iff.mpr (units_read hstrips hm)⟩
  · rintro ⟨m, hm, rfl⟩
    have hstrips := Text.strips_trim cs
    obtain ⟨n, htext⟩ := exists_decimal hstrips (by simp [hm])
    rw [← htext] at hstrips
    obtain ⟨hplaces, hsize⟩ := (exists_read_iff hstrips).mp ⟨m, hm⟩
    exact ⟨n, hstrips, hplaces, hsize, (value_eq_iff.mpr (units_read hstrips hm)).symm⟩

/-- The number that a value has under a parameter: a count if its ten-thousandths are in range, an
amount always, a text if the parameter is one of texts and it writes a number. -/
inductive Observation.Denotes (p : Parameter) : Observation → ℚ → Prop
  | count {n : Count} (h : n.toNat * 10000 ≤ 9223372036854775807) : Denotes p (.count n) n.toNat
  | amount (m : Money) : Denotes p (.amount m) m.value
  | text {t : String} {x : ℚ} (hp : p.isNumeric = false) (h : Money.Written t.toList x) :
    Denotes p (.text t) x

theorem Observation.denotes_iff {p : Parameter} {v : Observation} {x : ℚ} :
    v.Denotes p x ↔ ∃ m, v.number? p = some m ∧ m.value = x := by
  cases v with
  | count n =>
    have hnumber : ∀ m, number? p (.count n) = some m ↔ m.units = n.toNat * 10000 :=
      fun m => Money.ofUnits?_eq_some
    have hvalue : ∀ m : Money, m.units = n.toNat * 10000 → m.value = n.toNat :=
      fun m hm => Money.value_eq_iff.mpr (by exact_mod_cast hm)
    simp only [hnumber]
    constructor
    · rintro ⟨hrange⟩
      exact ⟨⟨n.toNat * 10000, by omega, by omega⟩, rfl, hvalue _ rfl⟩
    · rintro ⟨m, hm, rfl⟩
      have hupper := m.upper
      rw [hvalue m hm]
      exact .count (by omega)
  | amount m =>
    constructor
    · rintro ⟨⟩
      exact ⟨m, rfl, rfl⟩
    · rintro ⟨m', hm, rfl⟩
      cases hm
      exact .amount m
  | text t =>
    constructor
    · rintro (_ | _ | ⟨hp, hwritten⟩)
      simpa [number?, hp] using Money.written_iff.mp hwritten
    · rintro ⟨m, hm, rfl⟩
      simp only [number?] at hm
      split at hm
      · cases hm
      · rename_i hp
        exact .text (by simpa using hp) (Money.written_iff.mpr ⟨m, hm, rfl⟩)

/-! ## Comparisons -/

/-- The relation of numbers that an operator asks for. -/
inductive Operator.Compares : Operator → (ℚ → ℚ → Prop) → Prop
  | equals : Compares .equals (· = ·)
  | lessThan : Compares .lessThan (· < ·)
  | lessOrEqual : Compares .lessOrEqual (· ≤ ·)
  | greaterThan : Compares .greaterThan (· > ·)
  | greaterOrEqual : Compares .greaterOrEqual (· ≥ ·)

/-- The order of two amounts is that of the numbers they stand for. -/
theorem Money.order_eq (m m' : Money) : m.order m' = cmp m.value m'.value := by
  have hlt : ∀ {a b : Money}, a.units < b.units → a.value < b.value := fun {a b} h => by
    rw [value, value, div_lt_div_iff_of_pos_right (by norm_num)]
    exact_mod_cast h
  rw [order]
  rcases lt_trichotomy m.units m'.units with h | h | h
  · rw [compare_lt_iff_lt.mpr h, (cmp_eq_lt_iff _ _).mpr (hlt h)]
  · rw [compare_eq_iff_eq.mpr h, (cmp_eq_eq_iff _ _).mpr (by rw [value, value, h])]
  · rw [compare_gt_iff_gt.mpr h, (cmp_eq_gt_iff _ _).mpr (hlt h)]

namespace Condition

/-- An answer tells whether the number of a value and that of a condition are related, or which of
the two is missing, first that of the value. -/
structure Compared (c : Condition) (v : Observation) (rel : ℚ → ℚ → Prop)
    (answer : Except MatchFlaw Bool) : Prop where
  mismatch : (∀ x, ¬v.Denotes c.parameter x) →
    answer = .error (.observation c.parameter v.display)
  unwritten : ∀ x, v.Denotes c.parameter x → (∀ y, ¬Money.Written c.value.toList y) →
    answer = .error (.condition c.value)
  related : ∀ x y, v.Denotes c.parameter x → Money.Written c.value.toList y →
    ∃ b, answer = .ok b ∧ (b = true ↔ rel x y)

variable {c : Condition} {v : Observation}

/-- What is made of the order of the two sides tells whether they are related. -/
theorem compared_map {rel : ℚ → ℚ → Prop} {f : Ordering → Bool}
    (hf : ∀ x y, f (cmp x y) = true ↔ rel x y) : Compared c v rel ((c.compare v).map f) where
  mismatch hnone := by
    have hnumber : v.number? c.parameter = none := by
      rw [Option.eq_none_iff_forall_ne_some]
      exact fun m hm => hnone _ (Observation.denotes_iff.mpr ⟨m, hm, rfl⟩)
    rw [Condition.compare, hnumber]
    rfl
  unwritten x hx hnone := by
    obtain ⟨m, hm, -⟩ := Observation.denotes_iff.mp hx
    have hread : Money.read? c.value.toList = none := by
      rw [Option.eq_none_iff_forall_ne_some]
      exact fun m hm => hnone _ (Money.written_iff.mpr ⟨m, hm, rfl⟩)
    rw [Condition.compare, hm, hread]
    rfl
  related x y hx hy := by
    obtain ⟨m, hm, rfl⟩ := Observation.denotes_iff.mp hx
    obtain ⟨m', hm', rfl⟩ := Money.written_iff.mp hy
    refine ⟨f (m.order m'), ?_, by rw [Money.order_eq, hf]⟩
    rw [Condition.compare, hm, hm']
    rfl

theorem test_equals (hvalue : ∀ t, v ≠ .text t) (hop : c.operator = .equals) :
    c.test v = (c.compare v).map fun o => decide (o = .eq) := by
  unfold test
  rw [hop]
  cases v with
  | text t => exact absurd rfl (hvalue t)
  | count n => rfl
  | amount m => rfl

/-- An operator that compares numbers answers as they compare. Equality does so for a value that is
not a text. -/
theorem compared_test {rel : ℚ → ℚ → Prop} (hop : c.operator.Compares rel)
    (hvalue : c.operator = .equals → ∀ t, v ≠ .text t) : Compared c v rel (c.test v) := by
  cases hoperator : c.operator <;> rw [hoperator] at hop <;> cases hop
  case equals =>
    rw [test_equals (hvalue hoperator) hoperator]
    exact compared_map fun x y => decide_eq_true_iff.trans (cmp_eq_eq_iff x y)
  all_goals simp only [test, hoperator]
  case lessThan => exact compared_map fun x y => decide_eq_true_iff.trans (cmp_eq_lt_iff x y)
  case lessOrEqual =>
    exact compared_map fun x y =>
      decide_eq_true_iff.trans ((not_congr (cmp_eq_gt_iff x y)).trans not_lt)
  case greaterThan => exact compared_map fun x y => decide_eq_true_iff.trans (cmp_eq_gt_iff x y)
  case greaterOrEqual =>
    exact compared_map fun x y =>
      decide_eq_true_iff.trans ((not_congr (cmp_eq_lt_iff x y)).trans not_lt)

theorem Compared.eq_ok_true_iff {rel : ℚ → ℚ → Prop} {answer : Except MatchFlaw Bool} {x y : ℚ}
    (h : Compared c v rel answer) (hx : v.Denotes c.parameter x)
    (hy : Money.Written c.value.toList y) : answer = .ok true ↔ rel x y := by
  obtain ⟨b, rfl, hb⟩ := h.related x y hx hy
  rw [Except.ok.injEq, hb]

/-- Of two numbers exactly one is below the other, or they are equal. -/
theorem existsUnique_order {P : Operator → Prop} {x y : ℚ} (hlt : P .lessThan ↔ x < y)
    (heq : P .equals ↔ x = y) (hgt : P .greaterThan ↔ x > y) :
    ∃! op, (op = .lessThan ∨ op = .equals ∨ op = .greaterThan) ∧ P op := by
  rcases lt_trichotomy x y with h | h | h
  · refine ⟨.lessThan, ⟨.inl rfl, hlt.mpr h⟩, ?_⟩
    rintro op ⟨rfl | rfl | rfl, hop⟩
    · rfl
    · exact absurd (heq.mp hop) h.ne
    · exact absurd (hgt.mp hop) h.not_gt
  · refine ⟨.equals, ⟨.inr (.inl rfl), heq.mpr h⟩, ?_⟩
    rintro op ⟨rfl | rfl | rfl, hop⟩
    · exact absurd (hlt.mp hop) h.not_lt
    · rfl
    · exact absurd (hgt.mp hop) h.not_gt
  · refine ⟨.greaterThan, ⟨.inr (.inr rfl), hgt.mpr h⟩, ?_⟩
    rintro op ⟨rfl | rfl | rfl, hop⟩
    · exact absurd (hlt.mp hop) h.not_gt
    · exact absurd (heq.mp hop) h.ne'
    · rfl

theorem holds_eq_test {s : Snapshot} (hv : s c.parameter = some v) : c.holds s = c.test v := by
  rw [holds, hv]

/-- An order other than a given one is asked for by negation. -/
theorem map_ne (answer : Except MatchFlaw Ordering) (o : Ordering) :
    (answer.map fun o' => decide (o' ≠ o)) = (answer.map fun o' => decide (o' = o)).map (!·) := by
  cases answer <;> simp [Except.map]

/-- For a value of a parameter and the text of a condition, the operators that compare numbers
answer as the numbers compare, and fail alike where the value has none or the text writes none;
equality does so unless the value is a text, which is compared by its characters and never fails.
Not above is the negation of above and not below that of below; and where a count or an amount is
compared with a number, exactly one of below, equal and above holds. -/
theorem holds_compared {s : Snapshot} {p : Parameter} {v : Observation} (t : String)
    (hv : s p = some v) :
    (∀ op rel, op.Compares rel → (op = .equals → ∀ text, v ≠ .text text) →
      Compared ⟨p, op, t⟩ v rel (holds ⟨p, op, t⟩ s)) ∧
    (∀ text, v = .text text → holds ⟨p, .equals, t⟩ s = .ok (decide (text = t))) ∧
    holds ⟨p, .lessOrEqual, t⟩ s = (holds ⟨p, .greaterThan, t⟩ s).map (!·) ∧
    holds ⟨p, .greaterOrEqual, t⟩ s = (holds ⟨p, .lessThan, t⟩ s).map (!·) ∧
    ∀ x y, v.Denotes p x → Money.Written t.toList y → (∀ text, v ≠ .text text) →
      ∃! op, (op = .lessThan ∨ op = .equals ∨ op = .greaterThan) ∧
        holds ⟨p, op, t⟩ s = .ok true := by
  have htest : ∀ op, holds ⟨p, op, t⟩ s = test ⟨p, op, t⟩ v := fun op => holds_eq_test hv
  have hcompared : ∀ op rel, op.Compares rel → (op = .equals → ∀ text, v ≠ .text text) →
      Compared ⟨p, op, t⟩ v rel (holds ⟨p, op, t⟩ s) := by
    intro op rel hop hvalue
    rw [htest]
    exact compared_test hop hvalue
  refine ⟨hcompared, ?_, ?_, ?_, ?_⟩
  · rintro text rfl
    rw [htest]
    rfl
  · rw [htest, htest]
    exact map_ne _ .gt
  · rw [htest, htest]
    exact map_ne _ .lt
  · intro x y hx hy hvalue
    exact existsUnique_order
      ((hcompared _ _ .lessThan fun _ => hvalue).eq_ok_true_iff hx hy)
      ((hcompared _ _ .equals fun _ => hvalue).eq_ok_true_iff hx hy)
      ((hcompared _ _ .greaterThan fun _ => hvalue).eq_ok_true_iff hx hy)

/-- Five signups are compared with a text of that number, a text that is none is not compared with
them, and an identifier that is no number is compared by its characters only. -/
theorem holds_compared_signups :
    let s : Snapshot := fun
      | .signups => some (.count 5)
      | .itemId => some (.text "5a")
      | _ => none
    s .signups = some (.count 5) ∧ s .itemId = some (.text "5a") ∧
    holds ⟨.signups, .equals, " 5.00"⟩ s = .ok true ∧
    holds ⟨.signups, .lessThan, " 5.00"⟩ s = .ok false ∧
    holds ⟨.signups, .greaterThan, "five"⟩ s = .error (.condition "five") ∧
    holds ⟨.itemId, .greaterThan, "4"⟩ s = .error (.observation .itemId "5a") ∧
    holds ⟨.itemId, .equals, "5a"⟩ s = .ok true := by
  intro s
  let five : Decimal := ⟨none, [5], some [0, 0], .inl (by decide)⟩
  have hvalue : five.value = 5 := by
    rw [Decimal.value, if_neg (by decide)]
    norm_num [five, Decimal.magnitude, Decimal.afterPoint, Decimal.places, Text.natural,
      Nat.ofDigits]
  have hcs : " 5.00".toList = [' '] ++ (five.text ++ []) := rfl
  have hstrips : Text.Strips " 5.00".toList five.text :=
    Decimal.strips_text hcs (List.forall_mem_singleton.mpr rfl) (List.forall_mem_nil _)
  have hwritten : Money.Written " 5.00".toList 5 :=
    ⟨five, hstrips, by decide, by rw [hvalue]; norm_num, hvalue⟩
  have hcount : (Observation.count 5).Denotes .signups 5 := .count (n := 5) (by decide)
  have hword : ∀ y, ¬Money.Written "five".toList y := by
    intro y hy
    obtain ⟨m, hm, -⟩ := Money.written_iff.mp hy
    have hnone : Money.read? "five".toList = none := by decide
    cases hnone.symm.trans hm
  have htext : ∀ x, ¬(Observation.text "5a").Denotes .itemId x := by
    intro x hx
    obtain ⟨m, hm, -⟩ := Observation.denotes_iff.mp hx
    have hnone : (Observation.text "5a").number? .itemId = none := by decide
    cases hnone.symm.trans hm
  have hsignups : s .signups = some (.count 5) := rfl
  have hitem : s .itemId = some (.text "5a") := rfl
  have hfive := (holds_compared " 5.00" hsignups).1
  refine ⟨hsignups, hitem, ?_, ?_, ?_, ?_, ?_⟩
  · exact ((hfive _ _ .equals fun _ _ h => by cases h).eq_ok_true_iff hcount hwritten).mpr rfl
  · obtain ⟨b, hb, hrel⟩ :=
      (hfive _ _ .lessThan fun h => by cases h).related 5 5 hcount hwritten
    rw [hb]
    cases b with
    | false => rfl
    | true => exact absurd (hrel.mp rfl) (lt_irrefl _)
  · exact ((holds_compared "five" hsignups).1 _ _ .greaterThan fun h => by cases h).unwritten 5
      hcount hword
  · exact ((holds_compared "4" hitem).1 _ _ .greaterThan fun h => by cases h).mismatch htext
  · exact (holds_compared "5a" hitem).2.1 "5a" rfl

end Condition

end Referral
