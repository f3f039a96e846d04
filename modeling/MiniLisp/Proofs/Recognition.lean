import MiniLisp.Proofs.Grammar

namespace MiniLisp.Value

theorem start_atom {t : Token} {v : Value} (h : Atom t v) {stack : List Pending}
    (hs : stack.length < maxFormDepth) : start stack t = .ok (complete v stack) := by
  have hs : ¬ maxFormDepth ≤ stack.length := Nat.not_le.mpr hs
  have hword : ∀ cs, t = .word cs → start stack t = .ok (complete v stack) := by
    rintro cs rfl
    have hv := ofWord_eq_ok_iff.mpr h
    simp only [start, if_neg hs, hv, Except.map]
  cases h with
  | str spelled => simp only [start, if_neg hs, spelled.decode]
  | _ => exact hword _ rfl

theorem Atom.not_closing {t : Token} {v : Value} (h : Atom t v) (b : Bracket) : t ≠ .closing b := by
  rintro rfl
  cases h

theorem feed_opening {stack : List Pending} (hs : stack.length < maxFormDepth) (b : Bracket) :
    feed stack (.opening b) = .ok (.more (.seq b [] :: stack)) := by
  rw [feed_start (by simp), start, if_neg (Nat.not_le.mpr hs)]

theorem feed_mark {stack : List Pending} (hs : stack.length < maxFormDepth) (m : Mark) :
    feed stack (.mark m) = .ok (.more (.mark m :: stack)) := by
  rw [feed_start (by simp), start, if_neg (Nat.not_le.mpr hs)]

theorem feed_closing {b : Bracket} {items : List Value} {v : Value} (h : Bracketed b items v)
    (stack : List Pending) :
    feed (.seq b items.reverse :: stack) (.closing b) = .ok (complete v stack) := by
  simp [feed, h.ofBracket, Except.map]

theorem complete_mark {m : Mark} {name : String} (h : Abbreviates m name) (v : Value)
    (stack : List Pending) :
    complete v (.mark m :: stack) = complete (ofList [sym name, v]) stack := by
  cases h <;> rfl

mutual

/-- A form in front of the tokens is read to its end. -/
theorem Form.readOn {levels : Nat} {ts : List Token} {v : Value} (h : Form levels ts v)
    {stack : List Pending} (hs : stack.length + levels = maxFormDepth) (rest : List Token) :
    readOn stack (ts ++ rest) = resume (complete v stack) rest := by
  have hlt {n : Nat} (hn : levels = n + 1) : stack.length < maxFormDepth := by omega
  have hin {n : Nat} (hn : levels = n + 1) (p : Pending) :
      (p :: stack).length + n = maxFormDepth := by
    simp only [List.length_cons]
    omega
  match h with
  | .atom made =>
    refine readOn_cons ?_
    rw [feed_start made.not_closing, start_atom made (hlt rfl)]
  | @Form.bracket n b us items _ row made =>
    have hrow := row.readOn (hin rfl (.seq b [])) rfl (.closing b :: rest)
    rw [List.append_nil] at hrow
    rw [List.cons_append, List.append_assoc, List.singleton_append,
      readOn_cons (feed_opening (hlt rfl) b), resume, hrow, readOn_cons (feed_closing made stack)]
  | .mark short inner =>
    rw [List.cons_append, readOn_cons (feed_mark (hlt rfl) _), resume,
      inner.readOn (hin rfl _) rest, complete_mark short]
  | @Form.withMeta _ ms us note _ first second =>
    rw [List.cons_append, List.append_assoc, readOn_cons (feed_mark (hlt rfl) _), resume,
      first.readOn (hin rfl _) (us ++ rest), complete, resume,
      second.readOn (hin rfl (.target note)) rest]
    rfl

/-- The forms of a row are read one after the other into the innermost open bracket. -/
theorem Row.readOn {levels : Nat} {ts : List Token} {vs : List Value} (h : Row levels ts vs)
    {stack outer : List Pending} (hs : stack.length + levels = maxFormDepth) {b : Bracket}
    {items : List Value} (hb : stack = .seq b items :: outer) (rest : List Token) :
    readOn stack (ts ++ rest) = readOn (.seq b (vs.reverse ++ items) :: outer) rest := by
  subst hb
  match h with
  | .nil _ => rfl
  | @Row.cons _ us ws v vs first later =>
    have hs' : (Pending.seq b (v :: items) :: outer).length + levels = maxFormDepth := hs
    have hnext := later.readOn hs' rfl rest
    rw [List.append_assoc, first.readOn hs (ws ++ rest), complete, resume, hnext]
    simp

end

theorem Form.ne_nil {levels : Nat} {ts : List Token} {v : Value} (h : Form levels ts v) :
    ts ≠ [] := by
  cases h <;> exact List.cons_ne_nil _ _

/-- The string literals among the tokens are such as the scanner splits off. -/
def Scanned (ts : List Token) : Prop :=
  ∀ body, .string body ∈ ts → ∃ cs, body = (Lexeme.splitString cs).1

theorem Scanned.right {ts us : List Token} (h : Scanned (ts ++ us)) : Scanned us :=
  fun body hb => h body (List.mem_append_right ts hb)

theorem scanned_scan (cs : List Char) : Scanned (Token.scan cs) := by
  intro body hb
  obtain ⟨l, hl, ht⟩ := List.mem_filterMap.mp hb
  cases l with
  | comment => cases ht
  | token t =>
    cases ht
    exact Lexeme.splitString_of_mem_scan hl

/-- The reading fails with an error of a kind that the reader reports. -/
def Rejects (stack : List Pending) (ts : List Token) : Prop :=
  ∃ f, readOn stack ts = .error f ∧ f.kind ∈ [Kind.parse, Kind.paren, Kind.hash]

theorem rejects_nil (stack : List Pending) : Rejects stack [] := by
  refine ⟨_, rfl, ?_⟩
  unfold cutOff
  split
  · exact List.mem_of_elem_eq_true rfl
  · split <;> exact List.mem_of_elem_eq_true rfl

theorem rejects_of_feed {stack : List Pending} {t : Token} {f : Fault}
    (h : feed stack t = .error f) (hk : f.kind ∈ [Kind.parse, Kind.paren, Kind.hash])
    (ts : List Token) : Rejects stack (t :: ts) :=
  ⟨f, readOn_error h, hk⟩

theorem Rejects.cons {stack stack' : List Pending} {t : Token} {ts : List Token}
    (h : Rejects stack' ts) (hf : feed stack t = .ok (.more stack')) : Rejects stack (t :: ts) := by
  obtain ⟨f, hr, hk⟩ := h
  exact ⟨f, (readOn_cons hf).trans hr, hk⟩

theorem Rejects.form {levels : Nat} {stack stack' : List Pending} {used rest : List Token}
    {v : Value} (h : Rejects stack' rest) (hv : Form levels used v)
    (hs : stack.length + levels = maxFormDepth) (hc : complete v stack = .more stack') :
    Rejects stack (used ++ rest) := by
  obtain ⟨f, hr, hk⟩ := h
  refine ⟨f, ?_, hk⟩
  rw [hv.readOn hs rest, hc, resume, hr]

/-- A form stands in front of the tokens. -/
def Starts (levels : Nat) (ts : List Token) : Prop :=
  ∃ used rest v, ts = used ++ rest ∧ Form levels used v

/-- Either a form stands in front of the tokens or the reading fails. A closer that ends the
innermost bracket is not taken for the start of a form. -/
def Decides (levels : Nat) (stack : List Pending) (ts : List Token) : Prop :=
  (∀ t ∈ ts.head?, feed stack t = start stack t) → Scanned ts → Starts levels ts ∨ Rejects stack ts

theorem feed_mark_eq_start (m : Mark) (stack : List Pending) (t : Token) :
    feed (.mark m :: stack) t = start (.mark m :: stack) t := by
  cases t <;> rfl

theorem feed_target_eq_start (note : Value) (stack : List Pending) (t : Token) :
    feed (.target note :: stack) t = start (.target note :: stack) t := by
  cases t <;> rfl

theorem feed_seq_eq_start {b : Bracket} {t : Token} (h : t ≠ .closing b) (items : List Value)
    (stack : List Pending) : feed (.seq b items :: stack) t = start (.seq b items :: stack) t := by
  cases t with
  | closing b' =>
    have hb : b ≠ b' := by
      rintro rfl
      exact h rfl
    rw [feed, if_neg hb]
  | _ => rfl

/-- Inside a bracket either a row and the closer stand in front, or the reading fails. -/
theorem row_or_rejects {levels : Nat} {b : Bracket} {outer : List Pending}
    (hs : outer.length + 1 + levels = maxFormDepth)
    (hform : ∀ stack ts, stack.length + levels = maxFormDepth → Decides levels stack ts)
    (items : List Value) (ts : List Token) (hts : Scanned ts) :
    (∃ used rest vs, ts = used ++ .closing b :: rest ∧ Row levels used vs) ∨
      Rejects (.seq b items :: outer) ts := by
  -- by the number of tokens that are left
  induction hn : ts.length using Nat.strongRecOn generalizing ts items with
  | ind n ih =>
    subst hn
    match ts, hts with
    | [], _ => exact .inr (rejects_nil _)
    | t :: ts, hts =>
      by_cases ht : t = .closing b
      · subst ht
        exact .inl ⟨[], ts, [], rfl, .nil levels⟩
      · have hfirst : ∀ u ∈ (t :: ts).head?, feed (.seq b items :: outer) u =
            start (.seq b items :: outer) u := by
          rintro _ ⟨⟩
          exact feed_seq_eq_start ht items outer
        rcases hform (.seq b items :: outer) (t :: ts) hs hfirst hts with hform | hrej
        · obtain ⟨used, rest, v, heq, hv⟩ := hform
          rw [heq] at hts ih ⊢
          have hshort : rest.length < (used ++ rest).length := by
            have := List.length_pos_iff.mpr hv.ne_nil
            simp only [List.length_append]
            omega
          rcases ih _ hshort (v :: items) rest hts.right rfl with hrow | hrej
          · obtain ⟨later, after, vs, rfl, hrow⟩ := hrow
            exact .inl ⟨used ++ later, after, v :: vs, (List.append_assoc ..).symm, .cons hv hrow⟩
          · exact .inr (hrej.form hv hs rfl)
        · exact .inr hrej

theorem bracket_or_rejects {levels : Nat} {stack : List Pending}
    (hs : stack.length + (levels + 1) = maxFormDepth)
    (hform : ∀ stack ts, stack.length + levels = maxFormDepth → Decides levels stack ts)
    (b : Bracket) {ts : List Token} (hts : Scanned ts) :
    Starts (levels + 1) (.opening b :: ts) ∨ Rejects stack (.opening b :: ts) := by
  have hopen : feed stack (.opening b) = _ := feed_opening (by omega) b
  have hin : (Pending.seq b [] :: stack).length + levels = maxFormDepth := by
    simp only [List.length_cons]
    omega
  rcases row_or_rejects (b := b) hin hform [] ts hts with hrow | hrej
  · obtain ⟨used, rest, vs, rfl, hrow⟩ := hrow
    rcases ofBracket_cases b vs with ⟨v, -, hmade⟩ | ⟨f, hf, hk⟩
    · exact .inl ⟨.opening b :: (used ++ [.closing b]), rest, v, by simp, .bracket hrow hmade⟩
    · have hclose : feed (.seq b vs.reverse :: stack) (.closing b) = .error f := by
        simp [feed, hf, Except.map]
      refine .inr (Rejects.cons ⟨f, ?_, by simp [hk]⟩ hopen)
      rw [hrow.readOn hin rfl, List.append_nil]
      exact readOn_error hclose
  · exact .inr (hrej.cons hopen)

theorem mark_or_rejects {levels : Nat} {stack : List Pending}
    (hs : stack.length + (levels + 1) = maxFormDepth)
    (hform : ∀ stack ts, stack.length + levels = maxFormDepth → Decides levels stack ts)
    (m : Mark) {ts : List Token} (hts : Scanned ts) :
    Starts (levels + 1) (.mark m :: ts) ∨ Rejects stack (.mark m :: ts) := by
  have hmark : feed stack (.mark m) = _ := feed_mark (by omega) m
  have hin (p : Pending) : (p :: stack).length + levels = maxFormDepth := by
    simp only [List.length_cons]
    omega
  rcases hform _ ts (hin (.mark m)) (fun t _ => feed_mark_eq_start m stack t) hts with hone | hrej
  · obtain ⟨used, rest, v, rfl, hv⟩ := hone
    by_cases hm : m = .withMeta
    · subst hm
      rcases hform _ rest (hin (.target v)) (fun t _ => feed_target_eq_start v stack t)
          hts.right with htwo | hrej
      · obtain ⟨later, after, target, rfl, htarget⟩ := htwo
        exact .inl ⟨.mark .withMeta :: (used ++ later), after, _, by simp, .withMeta hv htarget⟩
      · exact .inr ((hrej.form hv (hin _) rfl).cons hmark)
    · exact .inl ⟨.mark m :: used, rest, _, rfl, .mark (abbreviates_symbol hm) hv⟩
  · exact .inr (hrej.cons hmark)

/-- Either a form stands in front of the tokens or the reading fails. -/
theorem form_or_rejects (levels : Nat) (stack : List Pending) (ts : List Token)
    (hs : stack.length + levels = maxFormDepth) : Decides levels stack ts := by
  induction levels generalizing stack ts with
  | zero =>
    intro hfirst _
    cases ts with
    | nil => exact .inr (rejects_nil stack)
    | cons t ts =>
      have hdeep := start_deep (Nat.le_of_eq hs.symm) t
      exact .inr (rejects_of_feed ((hfirst t rfl).trans hdeep) (List.mem_of_elem_eq_true rfl) ts)
  | succ levels ih =>
    intro hfirst hts
    have hlt : ¬ maxFormDepth ≤ stack.length := by omega
    cases ts with
    | nil => exact .inr (rejects_nil stack)
    | cons t ts =>
      have hfeed := hfirst t rfl
      have hrest : Scanned ts := fun body hb => hts body (List.mem_cons_of_mem t hb)
      cases t with
      | opening b => exact bracket_or_rejects hs ih b hrest
      | mark m => exact mark_or_rejects hs ih m hrest
      | closing b =>
        rw [start, if_neg hlt] at hfeed
        exact .inr (rejects_of_feed hfeed (List.mem_of_elem_eq_true rfl) ts)
      | string body =>
        obtain ⟨cs, rfl⟩ := hts body (List.mem_cons_self ..)
        rw [start, if_neg hlt] at hfeed
        cases hd : Quoted.decode (Lexeme.splitString cs).1 with
        | some text => exact .inl ⟨[_], ts, _, rfl, .atom (.str (Quoted.spells_of_decode hd))⟩
        | none =>
          rw [hd] at hfeed
          exact .inr (rejects_of_feed hfeed (List.mem_of_elem_eq_true rfl) ts)
      | word cs =>
        rw [start, if_neg hlt] at hfeed
        cases hw : ofWord cs with
        | ok v => exact .inl ⟨[.word cs], ts, v, rfl, .atom (ofWord_eq_ok_iff.mp hw)⟩
        | error f =>
          rw [hw] at hfeed
          exact .inr (rejects_of_feed hfeed (by simp [ofWord_error hw]) ts)

/-- A form that stands in front of all tokens is what they are read as. -/
theorem Form.readOn_nil {used : List Token} {v : Value} (h : Form 512 used v) (rest : List Token) :
    Value.readOn [] (used ++ rest) = .ok (v, rest) :=
  h.readOn rfl rest

theorem Form.ofTokens {used : List Token} {v : Value} (h : Form 512 used v) (rest : List Token) :
    ofTokens (used ++ rest) = .ok (some v) := by
  rw [ofTokens_ne_nil (by simp [h.ne_nil]), h.readOn_nil rest]
  rfl

/-- No tokens start with two different forms. -/
theorem Form.unique {used used' rest rest' : List Token} {v v' : Value} (h : Form 512 used v)
    (h' : Form 512 used' v') (heq : used ++ rest = used' ++ rest') : used = used' ∧ v = v' := by
  have hread := h.readOn_nil rest
  rw [heq, h'.readOn_nil rest', Except.ok.injEq, Prod.mk.injEq] at hread
  obtain ⟨rfl, rfl⟩ := hread
  exact ⟨List.append_cancel_right heq, rfl⟩

/-- A text is read as the value of the form that its tokens start with; no form in it stands at
level 512 or deeper. There is at most one such form. If there is none, although there are tokens,
the reading fails. -/
theorem read_iff_form (source : String) :
    (read source = .ok none ↔ tokenize source = []) ∧
    (∀ v, read source = .ok (some v) ↔
      ∃ used rest, Token.scan source.toList = used ++ rest ∧ Form 512 used v) ∧
    (∀ used used' rest rest' v v', Token.scan source.toList = used ++ rest → Form 512 used v →
      Token.scan source.toList = used' ++ rest' → Form 512 used' v' → used = used' ∧ v = v') ∧
    (tokenize source ≠ [] →
      (¬ ∃ used rest v, Token.scan source.toList = used ++ rest ∧ Form 512 used v) →
        ∃ f, read source = .error f ∧ f.kind ∈ [Kind.parse, Kind.paren, Kind.hash]) := by
  have hread : read source = ofTokens (Token.scan source.toList) := rfl
  have hdecide := form_or_rejects 512 [] (Token.scan source.toList) rfl
    (fun t _ => by cases t <;> rfl) (scanned_scan _)
  have hempty : tokenize source = [] ↔ Token.scan source.toList = [] := List.map_eq_nil_iff
  rw [hread, ne_eq, hempty]
  generalize Token.scan source.toList = ts at hdecide
  have hform : ∀ {v}, ofTokens ts = .ok (some v) →
      ∃ used rest, ts = used ++ rest ∧ Form 512 used v := by
    intro v hv
    rcases hdecide with ⟨used, rest, w, rfl, hw⟩ | ⟨f, hf, -⟩
    · rw [hw.ofTokens rest, Except.ok.injEq, Option.some.injEq] at hv
      exact ⟨used, rest, rfl, hv ▸ hw⟩
    · have hne : ts ≠ [] := by
        rintro rfl
        cases hv
      rw [ofTokens_ne_nil hne, hf] at hv
      cases hv
  refine ⟨⟨fun hnone => ?_, ?_⟩, fun v => ⟨hform, ?_⟩, ?_, ?_⟩
  · by_contra hne
    rw [ofTokens_ne_nil hne] at hnone
    cases hr : readOn [] ts with
    | error f =>
      rw [hr] at hnone
      cases hnone
    | ok p =>
      rw [hr] at hnone
      cases hnone
  · rintro rfl
    rfl
  · rintro ⟨used, rest, rfl, hv⟩
    exact hv.ofTokens rest
  · intro used used' rest rest' v v' heq hv heq' hv'
    exact hv.unique hv' (heq.symm.trans heq')
  · intro hne hno
    rcases hdecide with hstarts | ⟨f, hf, hk⟩
    · exact absurd hstarts hno
    · refine ⟨f, ?_, hk⟩
      rw [ofTokens_ne_nil hne, hf]
      rfl

theorem form_quoted : Form 512 [.mark .quote, .word ['a']] (ofList [sym "quote", sym "a"]) := by
  refine .mark .quote (.atom (.sym ?_ (by simp) (by simp)))
  intro n hn
  have hp := Decimal.parse?_eq_some_iff.mpr hn
  simp [Decimal.parse?, Decimal.isDigits] at hp

theorem not_starts_closing (b : Bracket) (ts : List Token) : ¬ Starts 512 (.closing b :: ts) := by
  rintro ⟨used, rest, v, heq, hv⟩
  cases hv with
  | atom made =>
    cases made <;> cases heq
  | bracket | mark | withMeta => cases heq

theorem read_iff_form_cases :
    read "'a b" = .ok (some (ofList [sym "quote", sym "a"])) ∧
    (∀ used rest v, Token.scan "'a b".toList = used ++ rest → Form 512 used v →
      used = [.mark .quote, .word ['a']] ∧ v = ofList [sym "quote", sym "a"]) ∧
    (∃ f, read ") a" = .error f ∧ f.kind ∈ [Kind.parse, Kind.paren, Kind.hash]) ∧
    read "; nothing" = .ok none := by
  have hquoted : Token.scan "'a b".toList = [.mark .quote, .word ['a']] ++ [.word ['b']] := by
    with_unfolding_all rfl
  have hclosing : Token.scan ") a".toList = .closing .round :: [.word ['a']] := by
    with_unfolding_all rfl
  have hcomment : tokenize "; nothing" = [] := by
    with_unfolding_all rfl
  refine ⟨((read_iff_form _).2.1 _).mpr ⟨_, _, hquoted, form_quoted⟩, ?_, ?_, ?_⟩
  · intro used rest v heq hv
    exact (read_iff_form "'a b").2.2.1 _ _ _ _ _ _ heq hv hquoted form_quoted
  · refine (read_iff_form ") a").2.2.2 (by rw [tokenize, hclosing]; exact List.cons_ne_nil _ _) ?_
    rw [hclosing]
    exact not_starts_closing _ _
  · exact (read_iff_form _).1.mpr hcomment

end MiniLisp.Value
