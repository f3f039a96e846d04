import MiniLisp.Proofs.Recognition

namespace MiniLisp

namespace Quoted

theorem Spells.splitString {body text : List Char} (h : Spells body text) (rest : List Char) :
    Lexeme.splitString (body ++ rest) = (body, rest) := by
  induction h with
  | closing => simp [Lexeme.splitString, mark]
  | lineFeed _ ih => simp [Lexeme.splitString, ih]
  | escaped _ _ ih => simp [Lexeme.splitString, ih]
  | kept _ _ ih => simp [Lexeme.splitString, ih]
  | plain ordinary _ ih =>
    simp only [List.mem_cons, List.not_mem_nil, or_false, not_or, mark] at ordinary
    rw [List.cons_append, Lexeme.splitString.eq_def]
    simp [ordinary, ih]

end Quoted

namespace Lexeme

section Stopping

variable {p : Char → Bool} {stop : Char} (hp : p stop = false)
include hp

theorem takeWhile_append_stop (cs rest : List Char) :
    (cs ++ stop :: rest).takeWhile p = cs.takeWhile p := by
  induction cs with
  | nil => simp [hp]
  | cons c cs ih => simp only [List.cons_append, List.takeWhile_cons, ih]

theorem dropWhile_append_stop (cs rest : List Char) :
    (cs ++ stop :: rest).dropWhile p = cs.dropWhile p ++ stop :: rest := by
  induction cs with
  | nil => simp [hp]
  | cons c cs ih =>
    simp only [List.cons_append, List.dropWhile_cons, ih]
    split <;> rfl

end Stopping

/-- A lexeme that ends before a line feed is not changed by what stands behind that. -/
theorem next_append_lineFeed {c : Char} {cs : List Char} (rest : List Char)
    (h : ∀ body, (next c cs).1 = token (.string body) → ∃ text, Quoted.Spells body text) :
    next c (cs ++ '\n' :: rest) = ((next c cs).1, (next c cs).2 ++ '\n' :: rest) := by
  by_cases hmark : c = '\x22'
  · subst hmark
    obtain ⟨text, hbody⟩ := h (splitString cs).1 rfl
    have hcs : cs ++ '\n' :: rest = (splitString cs).1 ++ ((splitString cs).2 ++ '\n' :: rest) := by
      rw [← List.append_assoc, splitString_append]
    have hsplit := hbody.splitString ((splitString cs).2 ++ '\n' :: rest)
    simp only [next, hcs, hsplit]
  · unfold next
    split
    · rw [takeWhile_append_stop rfl, dropWhile_append_stop rfl]
    all_goals try rfl
    · cases cs with
      | nil => rfl
      | cons d ds =>
        by_cases hd : d = '@'
        · subst hd
          rfl
        · simp [hd]
    · exact absurd rfl hmark
    · rw [takeWhile_append_stop (by decide), dropWhile_append_stop (by decide)]

end Lexeme

namespace Token

/-- What a lexeme contributes to the tokens. -/
theorem scan_next {c : Char} {cs : List Char} (h : isSeparator c = false) :
    scan (c :: cs) = (Lexeme.next c cs).1.token?.toList ++ scan (Lexeme.next c cs).2 := by
  rw [scan, Lexeme.scan_cons h, List.filterMap_cons]
  cases (Lexeme.next c cs).1.token? <;> rfl

/-- Behind a line feed a text is scanned as if it stood alone, if every literal in front of it has an
end. A comment ends at the line feed at the latest. -/
theorem scan_append_lineFeed {cs : List Char}
    (h : ∀ body, string body ∈ scan cs → ∃ text, Quoted.Spells body text) (rest : List Char) :
    scan (cs ++ '\n' :: rest) = scan cs ++ scan rest := by
  induction hn : cs.length using Nat.strongRecOn generalizing cs with
  | ind n ih =>
    subst hn
    cases cs with
    | nil => rw [List.nil_append, scan_nil, List.nil_append, scan_separator rfl]
    | cons c cs =>
      by_cases hc : isSeparator c = true
      · rw [scan_separator hc] at h
        rw [List.cons_append, scan_separator hc, scan_separator hc]
        exact ih cs.length (Nat.lt_succ_self _) h rfl
      · have hc : isSeparator c = false := by simpa using hc
        have hshort : (Lexeme.next c cs).2.length < (c :: cs).length :=
          Nat.lt_succ_of_le (Lexeme.next_length c cs)
        rw [scan_next hc] at h ⊢
        have hstring : ∀ body, (Lexeme.next c cs).1 = .token (.string body) →
            ∃ text, Quoted.Spells body text := by
          intro body hbody
          rw [hbody] at h
          exact h body (List.mem_append_left _ List.mem_cons_self)
        have hnext := Lexeme.next_append_lineFeed rest hstring
        have hlater := ih _ hshort (fun body hbody => h body (List.mem_append_right _ hbody)) rfl
        rw [List.cons_append, scan_next hc, hnext, hlater, List.append_assoc]

end Token

namespace Value

mutual

/-- All literals in a form have an end. -/
theorem Form.spelled {levels : Nat} {ts : List Token} {v : Value} (h : Form levels ts v)
    (body : List Char) (hb : .string body ∈ ts) : ∃ text, Quoted.Spells body text := by
  match h with
  | .atom made =>
    cases made with
    | str spelled =>
      cases List.mem_singleton.mp hb
      exact ⟨_, spelled⟩
    | _ => cases List.mem_singleton.mp hb
  | .bracket row _ =>
    refine row.spelled body ?_
    simpa using hb
  | .mark _ inner =>
    refine inner.spelled body ?_
    simpa using hb
  | .withMeta first second =>
    rcases List.mem_append.mp ((List.mem_cons.mp hb).resolve_left nofun) with hb | hb
    · exact first.spelled body hb
    · exact second.spelled body hb

theorem Row.spelled {levels : Nat} {ts : List Token} {vs : List Value} (h : Row levels ts vs)
    (body : List Char) (hb : .string body ∈ ts) : ∃ text, Quoted.Spells body text := by
  match h with
  | .nil _ => cases hb
  | .cons first rest =>
    rcases List.mem_append.mp hb with hb | hb
    · exact first.spelled body hb
    · exact rest.spelled body hb

end

theorem Row.append {levels : Nat} {ts us : List Token} {vs ws : List Value} (h : Row levels ts vs)
    (h' : Row levels us ws) : Row levels (ts ++ us) (vs ++ ws) := by
  induction vs generalizing ts with
  | nil =>
    cases h
    exact h'
  | cons v vs ih =>
    cases h with
    | cons first rest =>
      rw [List.append_assoc]
      exact .cons first (ih rest)

theorem atom_do : Atom (.word ['d', 'o']) (sym "do") := by
  refine ofWord_eq_ok_iff.mp ?_
  with_unfolding_all rfl

end Value
end MiniLisp
