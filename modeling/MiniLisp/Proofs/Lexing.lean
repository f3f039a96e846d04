import MiniLisp.Token
import MiniLisp.Text.Quoted

namespace MiniLisp

/-- A word as the scanner finds it: no character ends a word, and the first one starts no mark. -/
def IsWord : List Char → Prop
  | [] => False
  | c :: cs => c ∉ ['~', '@', '^'] ∧ ∀ d ∈ c :: cs, isWordChar d = true

instance : (cs : List Char) → Decidable (IsWord cs)
  | [] => inferInstanceAs (Decidable False)
  | c :: cs => @instDecidableAnd _ _ inferInstance (List.decidableBAll _ (c :: cs))

/-- A word that stands in front of the text ends there. -/
def EndsWord (rest : List Char) : Prop :=
  ∀ c ∈ rest.head?, isWordChar c = false

theorem separator_of_word {c : Char} (h : isWordChar c = true) : isSeparator c = false := by
  simp only [isWordChar, Bool.and_eq_true, Bool.not_eq_true'] at h
  exact h.1

section Runs

variable {p : Char → Bool} {cs rest : List Char}

theorem head_dropWhile (p : Char → Bool) (cs : List Char) :
    ∀ c ∈ (cs.dropWhile p).head?, p c = false := by
  intro c hc
  simpa [Option.mem_def.mp hc] using List.head?_dropWhile_not p cs

/-- A run is taken off a text as far as the characters after it allow. -/
theorem takeWhile_run (hcs : ∀ c ∈ cs, p c = true) (hr : ∀ c ∈ rest.head?, p c = false) :
    (cs ++ rest).takeWhile p = cs := by
  rw [List.takeWhile_append_of_pos hcs]
  cases rest with
  | nil => exact List.append_nil cs
  | cons c rest => rw [List.takeWhile_cons_of_neg (by simp [hr c rfl]), List.append_nil]

theorem dropWhile_run (hcs : ∀ c ∈ cs, p c = true) (hr : ∀ c ∈ rest.head?, p c = false) :
    (cs ++ rest).dropWhile p = rest := by
  rw [List.dropWhile_append_of_pos hcs]
  cases rest with
  | nil => rfl
  | cons c rest => exact List.dropWhile_cons_of_neg (by simp [hr c rfl])

end Runs

namespace Lexeme

theorem scan_nil : scan [] = [] := by
  rw [scan.eq_def]
  rfl

theorem scan_separator {c : Char} {cs : List Char} (h : isSeparator c = true) :
    scan (c :: cs) = scan cs := by
  have hd : (c :: cs).dropWhile isSeparator = cs.dropWhile isSeparator :=
    List.dropWhile_cons_of_pos h
  rw [scan.eq_def, scan.eq_def cs]
  split <;> split <;> simp_all

theorem scan_dropWhile (cs : List Char) : scan (cs.dropWhile isSeparator) = scan cs := by
  induction cs with
  | nil => rfl
  | cons c cs ih =>
    by_cases hc : isSeparator c = true
    · rw [List.dropWhile_cons_of_pos hc, ih, scan_separator hc]
    · rw [List.dropWhile_cons_of_neg hc]

theorem scan_cons {c : Char} {cs : List Char} (h : isSeparator c = false) :
    scan (c :: cs) = (next c cs).1 :: scan (next c cs).2 := by
  have hd : (c :: cs).dropWhile isSeparator = c :: cs :=
    List.dropWhile_cons_of_neg (by simp [h])
  rw [scan.eq_def]
  split <;> simp_all

theorem next_word {c : Char} {cs rest : List Char} (hw : IsWord (c :: cs)) (hr : EndsWord rest) :
    next c (cs ++ rest) = (token (.word (c :: cs)), rest) := by
  obtain ⟨hc, hcs⟩ := hw
  have hall : ∀ d ∈ cs, isWordChar d = true := fun d hd => hcs d (List.mem_cons_of_mem _ hd)
  have hword := hcs c (List.mem_cons_self ..)
  unfold next
  split
  all_goals try exact absurd hword (by decide)
  all_goals try exact absurd hc (by decide)
  · rw [takeWhile_run hall hr, dropWhile_run hall hr]

theorem splitString_encode (cs rest : List Char) :
    splitString (Quoted.encode cs ++ Quoted.mark :: rest) =
      (Quoted.encode cs ++ [Quoted.mark], rest) := by
  fun_induction Quoted.encode cs with
  | case1 => simp [splitString, Quoted.mark]
  | case2 cs ih => simp [splitString, ih]
  | case3 cs _ ih => simp [splitString, ih]
  | case4 cs _ _ ih => simp [splitString, ih]
  | case5 c cs hm hb _ ih =>
    rw [List.cons_append, splitString.eq_def]
    simp_all [Quoted.mark]

/-- Every word that a text holds is one. -/
theorem isWord_of_next {c : Char} {cs w : List Char} (hc : isSeparator c = false)
    (h : (next c cs).1 = token (.word w)) : IsWord w := by
  unfold next at h
  split at h <;> try (cases h; done)
  · split at h <;> cases h
  · cases h
    rename_i hsemi hro hso hco hrc hsc hcc hq hb hat hcaret htilde hmark
    refine ⟨by simp_all, ?_⟩
    intro d hd
    rcases List.mem_cons.mp hd with rfl | hd
    · have hcomma : d ≠ ',' := by
        rintro rfl
        cases hc
      simp_all [isWordChar, delimiters]
    · exact List.all_eq_true.mp List.all_takeWhile d hd

theorem isWord_of_mem_scan {cs w : List Char} (h : token (.word w) ∈ scan cs) : IsWord w := by
  fun_induction scan cs with
  | case1 => simp at h
  | case2 cs c rest hd _ ih =>
    rcases List.mem_cons.mp h with h | h
    · have hc := List.head?_dropWhile_not isSeparator cs
      exact isWord_of_next (by simpa [hd] using hc) h.symm
    · exact ih h

/-- Only the mark for strings starts a literal. -/
theorem splitString_of_next {c : Char} {cs body : List Char}
    (h : (next c cs).1 = token (.string body)) : c = '\x22' ∧ body = (splitString cs).1 := by
  unfold next at h
  split at h <;> try (cases h; done)
  · split at h <;> cases h
  · cases h
    exact ⟨rfl, rfl⟩

/-- Every string literal that a text holds has been split off at its closing mark. -/
theorem splitString_of_mem_scan {cs body : List Char} (h : token (.string body) ∈ scan cs) :
    ∃ ds, body = (splitString ds).1 := by
  fun_induction scan cs with
  | case1 => simp at h
  | case2 cs c rest hd _ ih =>
    rcases List.mem_cons.mp h with h | h
    · exact ⟨_, (splitString_of_next h.symm).2⟩
    · exact ih h

end Lexeme

namespace Token

theorem scan_nil : scan [] = [] := by
  simp [scan, Lexeme.scan_nil]

theorem scan_separator {c : Char} {cs : List Char} (h : isSeparator c = true) :
    scan (c :: cs) = scan cs := by
  simp [scan, Lexeme.scan_separator h]

theorem scan_cons {c : Char} {cs rest : List Char} {t : Token} (h : isSeparator c = false)
    (hn : Lexeme.next c cs = (.token t, rest)) : scan (c :: cs) = t :: scan rest := by
  simp [scan, Lexeme.scan_cons h, hn, Lexeme.token?]

theorem scan_opening (b : Bracket) (rest : List Char) :
    scan (b.opening :: rest) = opening b :: scan rest := by
  cases b <;> exact scan_cons rfl rfl

theorem scan_closing (b : Bracket) (rest : List Char) :
    scan (b.closing :: rest) = closing b :: scan rest := by
  cases b <;> exact scan_cons rfl rfl

theorem scan_word {w rest : List Char} (hw : IsWord w) (hr : EndsWord rest) :
    scan (w ++ rest) = word w :: scan rest := by
  cases w with
  | nil => exact hw.elim
  | cons c cs =>
    have hc := separator_of_word (hw.2 c (List.mem_cons_self ..))
    exact scan_cons hc (Lexeme.next_word hw hr)

theorem scan_literal (cs rest : List Char) :
    scan (Quoted.literal cs ++ rest) = string (Quoted.encode cs ++ [Quoted.mark]) :: scan rest := by
  have hs := Lexeme.splitString_encode cs rest
  rw [Quoted.literal, List.cons_append, List.append_assoc, List.singleton_append]
  refine scan_cons rfl ?_
  simp [Lexeme.next, Quoted.mark] at hs ⊢
  simp [hs]

theorem isWord_of_mem_scan {cs w : List Char} (h : word w ∈ scan cs) : IsWord w := by
  obtain ⟨l, hl, ht⟩ := List.mem_filterMap.mp h
  cases l with
  | comment body => cases ht
  | token t =>
    cases ht
    exact Lexeme.isWord_of_mem_scan hl

end Token
end MiniLisp
