import MiniLisp.Proofs.Wrapping

namespace MiniLisp

namespace Token

/-- The tokens in front stay what they are when lines are added to the text, if every literal among
them has an end. The tokens behind them may come out differently. -/
theorem front_append_lineFeed {cs : List Char} {front back : List Token}
    (hscan : scan cs = front ++ back)
    (h : ∀ body, string body ∈ front → ∃ text, Quoted.Spells body text) (more : List Char) :
    ∃ later, scan (cs ++ '\n' :: more) = front ++ later := by
  -- by the length of the text; each turn takes a separator or a lexeme off both texts
  induction hn : cs.length using Nat.strongRecOn generalizing cs front with
  | ind n ih =>
    subst hn
    cases front with
    | nil => exact ⟨_, rfl⟩
    | cons t front =>
      cases cs with
      | nil => simp [scan_nil] at hscan
      | cons c cs =>
        rw [List.cons_append]
        by_cases hc : isSeparator c = true
        · rw [scan_separator hc] at hscan ⊢
          exact ih cs.length (Nat.lt_succ_self _) hscan h rfl
        · have hc : isSeparator c = false := by simpa using hc
          have hshort : (Lexeme.next c cs).2.length < (c :: cs).length :=
            Nat.lt_succ_of_le (Lexeme.next_length c cs)
          rw [scan_next hc] at hscan ⊢
          have hended : ∀ body, (Lexeme.next c cs).1 = .token (.string body) →
              ∃ text, Quoted.Spells body text := by
            intro body hbody
            apply h body
            simp [hbody, Lexeme.token?] at hscan
            simp [hscan.1]
          rw [Lexeme.next_append_lineFeed more hended]
          cases hl : (Lexeme.next c cs).1.token? with
          | none =>
            -- a comment is no token, and the line feed ends it
            simp only [hl, Option.toList_none, List.nil_append] at hscan ⊢
            exact ih _ hshort hscan h rfl
          | some first =>
            simp only [hl, Option.toList_some, List.cons_append, List.nil_append,
              List.cons.injEq] at hscan ⊢
            obtain ⟨rfl, hrest⟩ := hscan
            obtain ⟨later, hlater⟩ :=
              ih _ hshort hrest (fun body hb => h body (List.mem_cons_of_mem _ hb)) rfl
            exact ⟨later, rfl, hlater⟩

end Token

namespace Value

/-- The tokens of a text that has been read begin with the form of its value. -/
theorem form_of_read {source : String} {v : Value} (h : read source = .ok (some v)) :
    ∃ used rest, Token.scan source.toList = used ++ rest ∧ Form 512 used v := by
  have hdecide := form_or_rejects 512 [] (Token.scan source.toList) rfl
    (fun t _ => by cases t <;> rfl) (scanned_scan _)
  rw [read] at h
  rcases hdecide with ⟨used, rest, w, hscan, hw⟩ | ⟨f, hf, -⟩
  · rw [hscan, hw.ofTokens rest, Except.ok.injEq, Option.some.injEq] at h
    exact ⟨used, rest, hscan, h ▸ hw⟩
  · have hne : Token.scan source.toList ≠ [] := by
      intro hnil
      rw [hnil] at h
      cases h
    rw [ofTokens_ne_nil hne, hf] at h
    cases h

/-- A text whose first form can be read has the same first form whatever is added on further lines,
also where the text goes on behind that form with a comment, an open bracket or a literal without an
end. -/
theorem read_append_lines {s : String} {v : Value} (h : read s = .ok (some v)) (t : String) :
    read (s ++ "\n" ++ t) = .ok (some v) := by
  obtain ⟨used, rest, hscan, hform⟩ := form_of_read h
  obtain ⟨later, hlater⟩ := Token.front_append_lineFeed hscan hform.spelled t.toList
  have htext : (s ++ "\n" ++ t).toList = s.toList ++ '\n' :: t.toList := by
    simp
  rw [read, htext, hlater, hform.ofTokens later]

theorem read_append_lines_open :
    (read "'a ( ; b" = .ok (some (ofList [sym "quote", sym "a"])) ∧
      read ("'a ( ; b" ++ "\n" ++ ") c") = .ok (some (ofList [sym "quote", sym "a"]))) ∧
    (read "'a (\"b" = .ok (some (ofList [sym "quote", sym "a"])) ∧
      read ("'a (\"b" ++ "\n" ++ "c\" ; d") = .ok (some (ofList [sym "quote", sym "a"]))) := by
  have hcomment : read "'a ( ; b" = .ok (some (ofList [sym "quote", sym "a"])) := by
    refine read_of_tokens rfl ?_
    with_unfolding_all rfl
  have hliteral : read "'a (\"b" = .ok (some (ofList [sym "quote", sym "a"])) := by
    refine read_of_tokens rfl ?_
    with_unfolding_all rfl
  exact ⟨⟨hcomment, read_append_lines hcomment ") c"⟩,
    hliteral, read_append_lines hliteral "c\" ; d"⟩

end Value
end MiniLisp
