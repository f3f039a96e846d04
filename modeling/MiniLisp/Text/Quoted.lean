namespace MiniLisp.Quoted

/-- The double quote that opens and closes a literal. -/
def mark : Char := '\x22'

/-- What stands between the marks for each character of the text. Three characters have an escape of two:
the double quote, the backslash and the line feed. -/
def encode : List Char → List Char
  | [] => []
  | c :: cs =>
    if c = mark then '\\' :: mark :: encode cs
    else if c = '\\' then '\\' :: '\\' :: encode cs
    else if c = '\n' then '\\' :: 'n' :: encode cs
    else c :: encode cs

/-- Reads up to the closing mark and forgets what follows; `none` if there is no closing mark. An escaped
character that is none of the three stands for the backslash and itself. -/
def decode : List Char → Option (List Char)
  | [] => none
  | '\\' :: c :: cs =>
    if c = 'n' then (decode cs).map ('\n' :: ·)
    else if c = mark ∨ c = '\\' then (decode cs).map (c :: ·)
    else (decode cs).map ('\\' :: c :: ·)
  | c :: cs =>
    if c = mark then some []
    else if c = '\\' then none
    else (decode cs).map (c :: ·)

/-- The text as a literal with both marks. -/
def literal (cs : List Char) : List Char :=
  mark :: (encode cs ++ [mark])

theorem decode_encode (cs rest : List Char) : decode (encode cs ++ mark :: rest) = some cs := by
  induction cs with
  | nil => simp [encode, decode, mark]
  | cons c cs ih =>
    unfold encode
    by_cases hm : c = mark
    · subst hm; simp_all [decode, mark]
    · by_cases hb : c = '\\'
      · subst hb; simp [decode, ih, hm]
      · by_cases hn : c = '\n'
        · subst hn; simp [decode, ih, hm]
        · simp only [hm, hb, hn, if_false, List.cons_append]
          rw [decode.eq_def]
          simp [hm, hb, ih]

end MiniLisp.Quoted
