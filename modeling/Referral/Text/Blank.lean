/-!
# Blanks and cuts

Texts are handled as lists of characters. Surrounding blanks are those of the Unicode property
`White_Space`; a text can be cut at the first occurrence of a character.
-/

namespace Referral.Text

/-- The characters with the Unicode property `White_Space`. -/
def isBlank (c : Char) : Bool :=
  (9 ≤ c.toNat && c.toNat ≤ 13) || c.toNat == 0x20 || c.toNat == 0x85 || c.toNat == 0xA0 ||
  c.toNat == 0x1680 || (0x2000 ≤ c.toNat && c.toNat ≤ 0x200A) || c.toNat == 0x2028 ||
  c.toNat == 0x2029 || c.toNat == 0x202F || c.toNat == 0x205F || c.toNat == 0x3000

/-- Every character that core counts as white space is a blank. -/
theorem isBlank_of_isWhitespace {c : Char} (h : c.isWhitespace = true) : isBlank c = true := by
  simp only [Char.isWhitespace, Bool.or_eq_true, decide_eq_true_eq] at h
  rcases h with ((rfl | rfl) | rfl) | rfl <;> decide

/-- The text without blanks in front. -/
def trimStart (cs : List Char) : List Char := cs.dropWhile isBlank

/-- The text without blanks at either end. -/
def trim (cs : List Char) : List Char := (trimStart (trimStart cs).reverse).reverse

@[simp] theorem trimStart_nil : trimStart [] = [] := rfl

@[simp] theorem trim_nil : trim [] = [] := rfl

/-- The parts before and after the first occurrence of `mark`. -/
def cutAt? (mark : Char) : List Char → Option (List Char × List Char)
  | [] => none
  | c :: cs => if c = mark then some ([], cs) else (cutAt? mark cs).map fun (l, r) => (c :: l, r)

/-- A cut loses nothing but the mark, and the mark is not in the first part. -/
theorem cutAt?_eq_some {mark : Char} {cs l r : List Char} (h : cutAt? mark cs = some (l, r)) :
    cs = l ++ mark :: r ∧ mark ∉ l := by
  induction cs generalizing l r with
  | nil => simp [cutAt?] at h
  | cons c cs ih =>
    by_cases hc : c = mark
    · simp only [cutAt?, hc, if_true, Option.some.injEq, Prod.mk.injEq] at h
      obtain ⟨rfl, rfl⟩ := h
      simp [hc]
    · simp only [cutAt?, hc, if_false, Option.map_eq_some_iff, Prod.mk.injEq] at h
      obtain ⟨⟨l', r'⟩, hcut, rfl, rfl⟩ := h
      obtain ⟨rfl, hl⟩ := ih hcut
      exact ⟨rfl, by simpa [hl] using Ne.symm hc⟩

/-- A text is cut at a mark that does not occur before. -/
theorem cutAt?_append {mark : Char} {l r : List Char} (h : mark ∉ l) :
    cutAt? mark (l ++ mark :: r) = some (l, r) := by
  induction l with
  | nil => simp [cutAt?]
  | cons c l ih =>
    simp only [List.mem_cons, not_or] at h
    simp [cutAt?, Ne.symm h.1, ih h.2]

/-- A cut fails only where the mark does not occur. -/
theorem cutAt?_eq_none {mark : Char} {cs : List Char} : cutAt? mark cs = none ↔ mark ∉ cs := by
  induction cs with
  | nil => simp [cutAt?]
  | cons c cs ih =>
    by_cases hc : c = mark
    · simp [cutAt?, hc]
    · simp [cutAt?, hc, ih, Ne.symm hc]

/-- The pieces of a text between the marks, at least one. -/
def splitAll (mark : Char) : List Char → List (List Char)
  | [] => [[]]
  | c :: cs =>
    match splitAll mark cs with
    | [] => [[c]]
    | p :: ps => if c = mark then [] :: p :: ps else (c :: p) :: ps

/-- The rest of a text after a given beginning. -/
def dropLead? : List Char → List Char → Option (List Char)
  | [], cs => some cs
  | _ :: _, [] => none
  | a :: as, c :: cs => if a = c then dropLead? as cs else none

theorem dropLead?_eq_some {lead cs rest : List Char} :
    dropLead? lead cs = some rest ↔ cs = lead ++ rest := by
  induction lead generalizing cs with
  | nil => simp [dropLead?]
  | cons a as ih =>
    cases cs with
    | nil => simp [dropLead?]
    | cons c cs =>
      by_cases h : a = c
      · simp [dropLead?, h, ih]
      · simp [dropLead?, h, Ne.symm h]

/-- Whether `part` occurs in the text as a run of neighbouring characters. -/
def occurs (part : List Char) : List Char → Bool
  | [] => part.isEmpty
  | c :: cs => (dropLead? part (c :: cs)).isSome || occurs part cs

theorem occurs_iff {part cs : List Char} : occurs part cs = true ↔ part <:+: cs := by
  induction cs with
  | nil => simp [occurs]
  | cons c cs ih =>
    rw [occurs, Bool.or_eq_true, ih, List.infix_cons_iff]
    refine or_congr ?_ Iff.rfl
    rw [Option.isSome_iff_exists]
    exact exists_congr fun rest => dropLead?_eq_some.trans eq_comm

end Referral.Text
