import Mathlib.Tactic

/-! # Splitting at a separator

The words of a list are its longest runs without the separator. They are the
pieces of a split that are not empty; joining pieces with the separator and
splitting again finds the pieces of the pieces.
-/

namespace OCamlStudy.OCaml

variable {α : Type}

section Length

variable {sep : α} {pieces pieces' : List (List α)}

theorem length_intercalate (sep : α) (pieces : List (List α)) :
    ([sep].intercalate pieces).length = (pieces.map fun piece => piece.length + 1).sum - 1 := by
  induction pieces with
  | nil => rfl
  | cons piece pieces ih =>
    cases pieces with
    | nil => simp
    | cons piece' pieces =>
      rw [List.intercalate_cons_cons, List.length_append, List.length_append, ih]
      simp only [List.map_cons, List.sum_cons, List.length_singleton]
      omega

theorem length_intercalate_le (h : pieces.Sublist pieces') :
    ([sep].intercalate pieces).length ≤ ([sep].intercalate pieces').length := by
  rw [length_intercalate, length_intercalate]
  have := (h.map fun piece => piece.length + 1).sum_le_sum fun _ _ => Nat.zero_le _
  omega

end Length

section Words

variable [DecidableEq α]

/-- The words that a scan from left to right finds, with the word read so far. -/
def wordsFrom (sep : α) (word : List α) : List α → List (List α)
  | [] => if word = [] then [] else [word]
  | a :: s =>
    if a = sep then if word = [] then wordsFrom sep [] s else word :: wordsFrom sep [] s
    else wordsFrom sep (word ++ [a]) s

def words (sep : α) (s : List α) : List (List α) := wordsFrom sep [] s

omit [DecidableEq α] in
theorem modifyHead_nil_append (pieces : List (List α)) : pieces.modifyHead ([] ++ ·) = pieces := by
  cases pieces with
  | nil | cons => rfl

theorem filter_modifyHead_eq_wordsFrom (sep : α) (word s : List α) :
    ((s.splitOn sep).modifyHead (word ++ ·)).filter (· ≠ []) = wordsFrom sep word s := by
  induction s generalizing word with
  | nil =>
    rw [List.splitOn_nil, wordsFrom]
    by_cases hw : word = []
    · simp [hw]
    · simp [hw]
  | cons a s ih =>
    rw [List.splitOn_cons_eq_if_modifyHead, wordsFrom]
    by_cases ha : a = sep
    · have hrest := ih []
      rw [modifyHead_nil_append] at hrest
      rw [if_pos (beq_iff_eq.mpr ha), if_pos ha, ← hrest]
      by_cases hw : word = []
      · simp [hw]
      · simp [hw]
    · rw [if_neg (by simpa using ha), if_neg ha, ← ih]
      simp [List.modifyHead_modifyHead, Function.comp_def]

theorem filter_splitOn_eq_words (sep : α) (s : List α) :
    (s.splitOn sep).filter (· ≠ []) = words sep s := by
  have h := filter_modifyHead_eq_wordsFrom sep [] s
  rwa [modifyHead_nil_append] at h

theorem words_append_sep (sep : α) (s t : List α) :
    words sep (s ++ sep :: t) = words sep s ++ words sep t := by
  simp only [← filter_splitOn_eq_words, List.splitOn_append_cons_self, List.filter_append]

theorem words_of_not_mem {sep : α} {word : List α} (hne : word ≠ []) (h : sep ∉ word) :
    words sep word = [word] := by
  rw [← filter_splitOn_eq_words, List.splitOn_eq_singleton h]
  simp [hne]

/-- No separator at either end, and no two next to each other. -/
structure SingleSpaced (sep : α) (s : List α) : Prop where
  head : s.head? ≠ some sep
  last : s.getLast? ≠ some sep
  infix_not : ¬ [sep, sep] <:+: s

theorem head?_splitOn_eq_nil_iff (sep : α) (s : List α) :
    (s.splitOn sep).head? = some [] ↔ s = [] ∨ s.head? = some sep := by
  cases s with
  | nil => simp
  | cons a s =>
    obtain ⟨piece, pieces, hs⟩ := List.exists_cons_of_ne_nil (List.splitOn_ne_nil sep s)
    rw [List.splitOn_cons_eq_if_modifyHead]
    by_cases ha : a = sep
    · simp [ha]
    · simp [ha, hs]

theorem nil_mem_tail_splitOn_iff (sep : α) (s : List α) :
    [] ∈ (s.splitOn sep).tail ↔ s.getLast? = some sep ∨ [sep, sep] <:+: s := by
  induction s with
  | nil => simp
  | cons a s ih =>
    obtain ⟨piece, pieces, hs⟩ := List.exists_cons_of_ne_nil (List.splitOn_ne_nil sep s)
    have hhead := head?_splitOn_eq_nil_iff sep s
    rw [hs] at ih hhead
    rw [List.splitOn_cons_eq_if_modifyHead, List.infix_cons_iff, hs]
    by_cases ha : a = sep
    · subst ha
      have hinitial : [a, a] <+: a :: s ↔ s.head? = some a := by
        cases s <;> simp [eq_comm]
      have hlast : (a :: s).getLast? = some a ↔ s = [] ∨ s.getLast? = some a := by
        cases s <;> simp
      have hpiece : [] = piece ↔ s = [] ∨ s.head? = some a := by
        rw [← hhead, List.head?_cons, Option.some.injEq, eq_comm]
      rw [hinitial, hlast]
      simp only [beq_self_eq_true, if_true, List.tail_cons] at ih ⊢
      rw [List.mem_cons, ih, hpiece]
      exact or_or_or_comm
    · have hinitial : ¬ [sep, sep] <+: a :: s := by
        simp [List.cons_prefix_cons, Ne.symm ha]
      have hlast : (a :: s).getLast? = some sep ↔ s.getLast? = some sep := by
        cases s <;> simp [ha]
      rw [if_neg (by simpa using ha), hlast]
      simp only [List.modifyHead_cons, List.tail_cons] at ih ⊢
      rw [ih, or_iff_right hinitial]

theorem nil_mem_splitOn_iff {sep : α} {s : List α} (hne : s ≠ []) :
    [] ∈ s.splitOn sep ↔ ¬ SingleSpaced sep s := by
  have hhead := head?_splitOn_eq_nil_iff sep s
  have htail := nil_mem_tail_splitOn_iff sep s
  obtain ⟨piece, pieces, hs⟩ := List.exists_cons_of_ne_nil (List.splitOn_ne_nil sep s)
  rw [hs, List.head?_cons, Option.some.injEq] at hhead
  rw [hs, List.tail_cons] at htail
  rw [hs, List.mem_cons, eq_comm, hhead, htail]
  constructor
  · rintro ((hnil | hfirst) | hlast | hpair) hspaced
    · exact hne hnil
    · exact hspaced.head hfirst
    · exact hspaced.last hlast
    · exact hspaced.infix_not hpair
  · intro h
    by_contra hnone
    simp only [not_or] at hnone
    exact h ⟨hnone.1.2, hnone.2.1, hnone.2.2⟩

omit [DecidableEq α] in
theorem sum_filter_lt {pieces : List (List α)} (h : [] ∈ pieces) :
    ((pieces.filter (· ≠ [])).map fun piece => piece.length + 1).sum <
      (pieces.map fun piece => piece.length + 1).sum := by
  induction pieces with
  | nil => cases h
  | cons piece pieces ih =>
    have hle := ((List.filter_sublist (p := (· ≠ [])) (l := pieces)).map
      fun piece => piece.length + 1).sum_le_sum fun _ _ => Nat.zero_le _
    by_cases hp : piece = []
    · subst hp
      simp only [List.filter_cons, List.map_cons, List.sum_cons] at hle ⊢
      simp at hle ⊢
      omega
    · have hlt := ih ((List.mem_cons.mp h).resolve_left (Ne.symm hp))
      rw [List.filter_cons_of_pos (by simpa using hp), List.map_cons, List.sum_cons, List.map_cons,
        List.sum_cons]
      omega

/-- **The words joined again are the list itself exactly if it is single-spaced.** -/
theorem intercalate_words_eq_iff {sep : α} {s : List α} :
    [sep].intercalate (words sep s) = s ↔ SingleSpaced sep s := by
  by_cases hne : s = []
  · subst hne
    exact iff_of_true rfl ⟨by simp, by simp, by simp⟩
  rw [← filter_splitOn_eq_words, ← not_iff_not, ← nil_mem_splitOn_iff hne]
  constructor
  · intro hjoin
    by_contra hnil
    have hall : (s.splitOn sep).filter (· ≠ []) = s.splitOn sep := by
      rw [List.filter_eq_self]
      rintro piece hpiece
      simpa using fun h : piece = [] => hnil (h ▸ hpiece)
    rw [hall, List.intercalate_splitOn] at hjoin
    exact hjoin rfl
  · rintro hnil hjoin
    have hlength := congrArg List.length hjoin
    have hsplit : ([sep].intercalate (s.splitOn sep)).length = s.length := by
      rw [List.intercalate_splitOn]
    rw [length_intercalate] at hlength hsplit
    have hlt := sum_filter_lt hnil
    have hpos := List.length_pos_of_ne_nil hne
    omega

theorem mem_splitOn_intercalate {sep : α} {pieces : List (List α)} (hne : pieces ≠ [])
    {line : List α} :
    line ∈ ([sep].intercalate pieces).splitOn sep ↔ ∃ piece ∈ pieces, line ∈ piece.splitOn sep := by
  induction pieces with
  | nil => exact absurd rfl hne
  | cons piece pieces ih =>
    cases pieces with
    | nil => simp
    | cons piece' pieces =>
      rw [List.intercalate_cons_cons, List.append_assoc, List.singleton_append,
        List.splitOn_append_cons_self, List.mem_append, ih (List.cons_ne_nil _ _)]
      simp only [List.mem_cons, exists_eq_or_imp]

end Words

end OCamlStudy.OCaml
