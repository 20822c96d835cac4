import Mathlib.Data.List.TakeWhile
import Subregister.Text

namespace Subregister.Text.Blank

structure Trimmed (text core : List Char) : Prop where
  parts : ∃ left right, text = left ++ core ++ right ∧ ∀ c ∈ left ++ right, isBlank c = true
  first : ∀ c, core.head? = some c → isBlank c = false
  last : ∀ c, core.getLast? = some c → isBlank c = false

theorem exists_eq_trimEnd_append (cs : List Char) :
    ∃ blanks, cs = trimEnd cs ++ blanks ∧ ∀ c ∈ blanks, isBlank c = true := by
  induction cs with
  | nil => exact ⟨[], rfl, by simp⟩
  | cons c cs ih =>
    obtain ⟨blanks, heq, hb⟩ := ih
    rw [trimEnd]
    cases ht : trimEnd cs with
    | nil =>
      rw [ht, List.nil_append] at heq
      by_cases hc : isBlank c = true
      · refine ⟨c :: cs, by simp [hc], ?_⟩
        rw [heq]
        intro d hd
        rcases List.mem_cons.mp hd with rfl | hd
        · exact hc
        · exact hb d hd
      · exact ⟨cs, by simp [hc], heq ▸ hb⟩
    | cons d ds => exact ⟨blanks, by rw [ht] at heq; simp only [heq, List.cons_append], hb⟩

theorem getLast_trimEnd (cs : List Char) (h : trimEnd cs ≠ []) :
    isBlank ((trimEnd cs).getLast h) = false := by
  induction cs with
  | nil => exact absurd rfl h
  | cons c cs ih =>
    revert h
    rw [trimEnd]
    cases ht : trimEnd cs with
    | nil =>
      by_cases hc : isBlank c = true
      · simp [hc]
      · simp [hc]
    | cons d ds =>
      intro h
      have := ih (by simp [ht])
      simp only [ht] at this
      simpa using this

theorem trimEnd_append (cs : List Char) {blanks : List Char} (h : ∀ c ∈ blanks, isBlank c = true) :
    trimEnd (cs ++ blanks) = trimEnd cs := by
  induction cs with
  | nil =>
    induction blanks with
    | nil => rfl
    | cons c cs ih =>
      rw [List.forall_mem_cons] at h
      have ht : trimEnd cs = [] := ih h.2
      simp [trimEnd, ht, h.1]
  | cons c cs ih => rw [List.cons_append, trimEnd, trimEnd, ih]

theorem trimEnd_of_last {cs : List Char} (h : ∀ c, cs.getLast? = some c → isBlank c = false) : trimEnd cs = cs := by
  induction cs with
  | nil => rfl
  | cons c cs ih =>
    cases cs with
    | nil => simp [trimEnd, h c rfl]
    | cons d ds => rw [trimEnd, ih (by simpa only [List.getLast?_cons_cons] using h)]

theorem trimmed_trim (text : List Char) : Trimmed text (trim text) := by
  obtain ⟨blanks, heq, hb⟩ := exists_eq_trimEnd_append (text.dropWhile isBlank)
  refine ⟨⟨text.takeWhile isBlank, blanks, ?_, ?_⟩, ?_, ?_⟩
  · rw [trim, List.append_assoc, ← heq, List.takeWhile_append_dropWhile]
  · intro c hc
    rcases List.mem_append.mp hc with hc | hc
    · exact List.mem_takeWhile_imp hc
    · exact hb c hc
  · intro c hc
    have hd : (text.dropWhile isBlank).head? = some c := by
      rw [heq, List.head?_append, ← trim, hc, Option.some_or]
    have := List.head?_dropWhile_not isBlank text
    rw [hd] at this
    simpa using this
  · intro c hc
    have hne : trim text ≠ [] := by
      intro h
      rw [h] at hc
      cases hc
    rw [List.getLast?_eq_some_getLast hne] at hc
    exact Option.some.inj hc ▸ getLast_trimEnd _ hne

theorem Trimmed.eq_trim {text core : List Char} (h : Trimmed text core) : core = trim text := by
  obtain ⟨⟨left, right, rfl, hb⟩, first, last⟩ := h
  rw [List.forall_mem_append] at hb
  rw [trim, List.append_assoc, List.dropWhile_append_of_pos hb.1]
  cases core with
  | nil => rw [List.nil_append, List.dropWhile_eq_nil_iff.mpr hb.2, trimEnd]
  | cons c cs =>
    rw [List.cons_append, List.dropWhile_cons_of_neg (by simp [first c rfl]), ← List.cons_append,
      trimEnd_append _ hb.2, trimEnd_of_last last]

theorem isBlank_of_toNat {c : Char} (low : 48 ≤ c.toNat) (high : c.toNat < 121) : isBlank c = false := by
  simp only [isBlank, Bool.or_eq_false_iff, Bool.and_eq_false_iff, decide_eq_false_iff_not, beq_eq_false_iff_ne]
  omega

theorem trim_eq_self {cs : List Char} (h : ∀ c ∈ cs, isBlank c = false) : trim cs = cs := by
  symm
  apply Trimmed.eq_trim
  refine ⟨⟨[], [], ?_, ?_⟩, ?_, ?_⟩
  · rw [List.nil_append, List.append_nil]
  · simp
  · exact fun c hc => h c (List.mem_of_mem_head? hc)
  · exact fun c hc => h c (List.mem_of_getLast? hc)

end Subregister.Text.Blank
