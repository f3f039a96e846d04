import MiniLisp.Proofs.Respacing
import MiniLisp.Value.Read

namespace MiniLisp

namespace Quoted

/-- Decodes as `decode` does, and keeps what stands behind the closing mark. -/
def decodeFront : List Char → Option (List Char × List Char)
  | [] => none
  | '\\' :: c :: cs =>
    if c = 'n' then (decodeFront cs).map (Prod.map ('\n' :: ·) id)
    else if c = mark ∨ c = '\\' then (decodeFront cs).map (Prod.map (c :: ·) id)
    else (decodeFront cs).map (Prod.map ('\\' :: c :: ·) id)
  | c :: cs =>
    if c = mark then some ([], cs)
    else if c = '\\' then none
    else (decodeFront cs).map (Prod.map (c :: ·) id)

theorem decode_eq_decodeFront (cs : List Char) : decode cs = (decodeFront cs).map Prod.fst := by
  fun_induction decodeFront cs with
  | case1 => rfl
  | case2 cs ih => simp [decode, ih, Function.comp_def]
  | case3 c cs hn hspecial ih => simp [decode, ih, hn, hspecial, Function.comp_def]
  | case4 c cs hn hspecial ih => simp [decode, ih, hn, hspecial, Function.comp_def]
  | case5 => simp [decode, mark]
  | case6 cs hpair =>
    -- a backslash that takes nothing is the last character
    cases cs with
    | nil => rfl
    | cons d ds => exact (hpair d ds rfl rfl).elim
  | case7 c cs hpair hm hb ih =>
    rw [decode.eq_def]
    simp [hm, hb, ih, Function.comp_def]

/-- How many backslashes stand at the end of the text. -/
def trailingBackslashes (cs : List Char) : Nat :=
  (cs.reverse.takeWhile (· == '\\')).length

/-- The text ends with a mark that no backslash takes: an even number of them stands in front of it. -/
def EndsWithMark (body : List Char) : Prop :=
  ∃ inner, body = inner ++ [mark] ∧ trailingBackslashes inner % 2 = 0

end Quoted

namespace Value

/-- Reads a string literal without its opening mark. What it does not read of it is left over. -/
def readLiteral (body : List Char) : Except Fault (List Char × List Char) :=
  match Quoted.decodeFront body with
  | some found => .ok found
  | none => Cause.openString.raise

/-- This is how the reader takes a string literal. -/
theorem start_string (stack : List Pending) (body : List Char) :
    start stack (.string body) =
      if maxFormDepth ≤ stack.length then Cause.nesting.raise
      else (readLiteral body).map fun (text, _) => complete (str (String.ofList text)) stack := by
  rw [start, readLiteral]
  split
  · rfl
  · simp only [Quoted.decode_eq_decodeFront]
    cases Quoted.decodeFront body <;> rfl

end Value

namespace Escaping

open Quoted

variable {cs ds : List Char} {c : Char}

/-- The last character of an inside stands for itself, or a backslash takes it. -/
theorem of_concat (h : Escaping (cs ++ [c])) :
    (Escaping cs ∧ c ≠ '\\' ∧ c ≠ mark) ∨ ∃ ds, cs = ds ++ ['\\'] ∧ Escaping ds := by
  generalize htext : cs ++ [c] = text at h
  induction h generalizing cs with
  | nil => simp at htext
  | @pair d text h ih =>
    match cs with
    | [] => simp at htext
    | [b] =>
      obtain ⟨rfl, -⟩ := List.cons.inj htext
      exact .inr ⟨[], rfl, .nil⟩
    | b :: b' :: cs =>
      simp only [List.cons_append, List.cons.injEq] at htext
      obtain ⟨rfl, rfl, hcs⟩ := htext
      rcases ih hcs with ⟨hinner, hc⟩ | ⟨ds, rfl, hinner⟩
      · exact .inl ⟨.pair _ hinner, hc⟩
      · exact .inr ⟨'\\' :: b' :: ds, rfl, .pair _ hinner⟩
  | @plain d text hb hq h ih =>
    match cs with
    | [] =>
      obtain ⟨rfl, -⟩ := List.cons.inj htext
      exact .inl ⟨.nil, hb, hq⟩
    | b :: cs =>
      simp only [List.cons_append, List.cons.injEq] at htext
      obtain ⟨rfl, hcs⟩ := htext
      rcases ih hcs with ⟨hinner, hc⟩ | ⟨ds, rfl, hinner⟩
      · exact .inl ⟨.plain hb hq hinner, hc⟩
      · exact .inr ⟨b :: ds, rfl, .plain hb hq hinner⟩

theorem trailingBackslashes_concat (cs : List Char) (c : Char) :
    trailingBackslashes (cs ++ [c]) = if c = '\\' then trailingBackslashes cs + 1 else 0 := by
  simp only [trailingBackslashes, List.reverse_append, List.reverse_singleton, List.singleton_append,
    List.takeWhile_cons]
  by_cases hc : c = '\\' <;> simp [hc]

/-- The backslashes at the end of an inside are pairs. -/
theorem even_trailing (h : Escaping cs) : trailingBackslashes cs % 2 = 0 := by
  induction hn : cs.length using Nat.strongRecOn generalizing cs with
  | ind n ih =>
    obtain rfl | ⟨front, c, rfl⟩ := List.eq_nil_or_concat cs
    · rfl
    · rw [List.concat_eq_append] at h hn ⊢
      rw [trailingBackslashes_concat]
      rcases h.of_concat with ⟨-, hc, -⟩ | ⟨ds, rfl, hinner⟩
      · rw [if_neg hc]
      · have hds : trailingBackslashes ds % 2 = 0 := by
          refine ih ds.length ?_ hinner rfl
          rw [← hn]
          simp only [List.length_append, List.length_singleton]
          omega
        rw [trailingBackslashes_concat, if_pos rfl]
        split <;> omega

theorem closes (h : Escaping cs) : EndsWithMark (cs ++ [mark]) :=
  ⟨cs, rfl, h.even_trailing⟩

/-- A mark at the end of an inside is taken by a backslash. -/
theorem not_closes (h : Escaping cs) : ¬ EndsWithMark cs := by
  rintro ⟨inner, rfl, heven⟩
  rcases h.of_concat with ⟨-, -, hmark⟩ | ⟨ds, rfl, hinner⟩
  · exact hmark rfl
  · rw [trailingBackslashes_concat, if_pos rfl] at heven
    have := hinner.even_trailing
    omega

/-- Decoding goes through an inside and on with what stands behind it. -/
theorem decodeFront_append (h : Escaping cs) (rest : List Char) :
    (∀ text last, decodeFront rest = some (text, last) →
        ∃ text, decodeFront (cs ++ rest) = some (text, last)) ∧
      (decodeFront rest = none → decodeFront (cs ++ rest) = none) := by
  induction h with
  | nil => exact ⟨fun text _ h => ⟨text, h⟩, id⟩
  | @pair c cs _ ih =>
    obtain ⟨hsome, hnone⟩ := ih
    refine ⟨fun text last h => ?_, fun h => ?_⟩
    · obtain ⟨text, htext⟩ := hsome text last h
      simp only [List.cons_append, decodeFront, htext]
      split
      · exact ⟨_, rfl⟩
      · split <;> exact ⟨_, rfl⟩
    · simp only [List.cons_append, decodeFront, hnone h]
      split
      · rfl
      · split <;> rfl
  | @plain c cs hb hq _ ih =>
    obtain ⟨hsome, hnone⟩ := ih
    have hstep : decodeFront (c :: (cs ++ rest)) =
        (decodeFront (cs ++ rest)).map (Prod.map (c :: ·) id) := by
      rw [decodeFront.eq_def]
      simp [hb, show c ≠ mark from hq]
    rw [List.cons_append, hstep]
    refine ⟨fun text last h => ?_, fun h => ?_⟩
    · obtain ⟨text, htext⟩ := hsome text last h
      exact ⟨c :: text, by rw [htext]; rfl⟩
    · rw [hnone h]
      rfl

end Escaping

/-- A segment that stands in front of a text stands in front of any beginning of it. -/
theorem Segment.Before.of_append {p : Segment} {rest more : List Char} (h : p.Before (rest ++ more)) :
    p.Before rest := by
  have hhead : ∀ c ∈ rest.head?, c ∈ (rest ++ more).head? := by
    intro c hc
    rw [List.head?_append, Option.mem_def.mp hc]
    rfl
  generalize htext : rest ++ more = text at h hhead
  cases h with
  | separators hne hcs hmax => exact .separators hne hcs fun c hc => hmax c (hhead c hc)
  | comment hcs hmax => exact .comment hcs fun c hc => hmax c (hhead c hc)
  | spliceMark => exact .spliceMark rest
  | special hc hmark => exact .special hc fun htilde hat => hmark htilde (hhead '@' hat)
  | closed hcs => exact .closed hcs rest
  | unclosed hcs =>
    obtain rfl := (List.append_eq_nil_iff.mp htext).1
    exact .unclosed hcs
  | unclosedEscape hcs =>
    obtain rfl := (List.append_eq_nil_iff.mp htext).1
    exact .unclosedEscape hcs
  | word hstart hcs hmax => exact .word hstart hcs fun c hc => hmax c (hhead c hc)

/-- What stands in front of a segment consists of the segments in front of it. -/
theorem Decomposes.split {cs : List Char} {ps qs : List Segment} {q : Segment}
    (h : Decomposes cs (ps ++ q :: qs)) : ∃ front rest, cs = front ++ (q.text ++ rest) ∧
      Decomposes front ps ∧ q.Before rest ∧ Decomposes rest qs := by
  induction ps generalizing cs with
  | nil =>
    cases h with
    | cons hq hqs => exact ⟨[], _, rfl, .nil, hq, hqs⟩
  | cons p ps ih =>
    cases h with
    | cons hp hps =>
      obtain ⟨front, rest, rfl, hfront, hq, hqs⟩ := ih hps
      exact ⟨p.text ++ front, rest, (List.append_assoc ..).symm, .cons hp.of_append hfront, hq, hqs⟩

/-- A literal ends with its closing mark, or it is the end of the text. -/
theorem Segment.Before.literal {body rest : List Char}
    (h : (Segment.token (Quoted.mark :: body)).Before rest) :
    (∃ cs, Escaping cs ∧ body = cs ++ [Quoted.mark]) ∨
      rest = [] ∧ (Escaping body ∨ ∃ cs, Escaping cs ∧ body = cs ++ ['\\']) := by
  generalize htoken : Quoted.mark :: body = text at h
  cases h with
  | spliceMark => cases htoken
  | special hc =>
    obtain ⟨rfl, -⟩ := List.cons.inj htoken
    exact absurd hc (by decide)
  | closed hcs => exact .inl ⟨_, hcs, (List.cons.inj htoken).2⟩
  | unclosed hcs => exact .inr ⟨rfl, .inl ((List.cons.inj htoken).2 ▸ hcs)⟩
  | unclosedEscape hcs => exact .inr ⟨rfl, .inr ⟨_, hcs, (List.cons.inj htoken).2⟩⟩
  | word _ hcs =>
    obtain ⟨rfl, -⟩ := List.cons.inj htoken
    exact absurd (hcs _ List.mem_cons_self) (by decide)

theorem Escaping.readLiteral_closed {cs : List Char} (h : Escaping cs) :
    ∃ text, Value.readLiteral (cs ++ [Quoted.mark]) = .ok (text, []) := by
  have hmark : Quoted.decodeFront [Quoted.mark] = some ([], []) := by simp [Quoted.decodeFront]
  obtain ⟨text, htext⟩ := (h.decodeFront_append [Quoted.mark]).1 [] [] hmark
  exact ⟨text, by rw [Value.readLiteral, htext]⟩

/-- A literal without an end cannot be read. -/
theorem readLiteral_open {body : List Char}
    (h : Escaping body ∨ ∃ cs, Escaping cs ∧ body = cs ++ ['\\']) :
    Value.readLiteral body = .error Cause.openString.fault ∧ ¬ Quoted.EndsWithMark body := by
  have hnone : Quoted.decodeFront body = none := by
    rcases h with hbody | ⟨cs, hcs, rfl⟩
    · simpa using (hbody.decodeFront_append []).2 rfl
    · exact (hcs.decodeFront_append ['\\']).2 rfl
  refine ⟨by rw [Value.readLiteral, hnone]; rfl, ?_⟩
  rcases h with hbody | ⟨cs, hcs, rfl⟩
  · exact hbody.not_closes
  · rintro ⟨inner, heq, -⟩
    exact absurd (List.append_inj' heq rfl).2 (by decide)

/-- The row of a text around one of its tokens. -/
theorem tokens_split {ps : List Segment} {before after : List (List Char)} {t : List Char}
    (h : Segment.tokens ps = before ++ t :: after) : ∃ front back, ps = front ++ .token t :: back ∧
      Segment.tokens front = before ∧ Segment.tokens back = after := by
  obtain ⟨front, rest, rfl, hfront, hrest⟩ := List.filterMap_eq_append_iff.mp h
  obtain ⟨between, q, back, rfl, hnone, hq, hback⟩ := List.filterMap_eq_cons_iff.mp hrest
  obtain rfl : q = .token t := by
    cases q <;> cases hq
    rfl
  refine ⟨front ++ between, back, (List.append_assoc ..).symm, ?_, hback⟩
  rw [Segment.tokens, List.filterMap_append, hfront, List.filterMap_eq_nil_iff.mpr hnone,
    List.append_nil]

/-- Of every token that starts with a double quote the reader reads the rest exactly if the token ends
with another double quote that no backslash takes, and then it reads all of it. Otherwise it fails, and
the token is the last one and goes to the end of the text. -/
theorem literal_ends {s t : String} {before after : List String} {body : List Char}
    (htokens : tokenize s = before ++ t :: after) (hmark : t.toList = Quoted.mark :: body) :
    (∀ stack, stack.length < maxFormDepth → Value.start stack (.string body) =
        (Value.readLiteral body).map fun (text, _) =>
          Value.complete (.str (String.ofList text)) stack) ∧
      ((∃ text rest, Value.readLiteral body = .ok (text, rest)) ↔ Quoted.EndsWithMark body) ∧
      (∀ text rest, Value.readLiteral body = .ok (text, rest) → rest = []) ∧
      ∀ f, Value.readLiteral body = .error f → f.kind = .parse ∧ after = [] ∧
        ∃ front, s = front ++ t ∧ tokenize front = before := by
  have hreader : ∀ stack, stack.length < maxFormDepth → Value.start stack (.string body) =
      (Value.readLiteral body).map fun (text, _) =>
        Value.complete (.str (String.ofList text)) stack := by
    intro stack hroom
    rw [Value.start_string, if_neg (Nat.not_le_of_lt hroom)]
  obtain ⟨segments, h⟩ := Decomposes.exists_segments s.toList
  have hrow := h.tokenize.symm.trans htokens
  obtain ⟨before, more, hsplit, rfl, hmore⟩ := List.map_eq_append_iff.mp hrow
  obtain ⟨_, after, rfl, rfl, rfl⟩ := List.map_eq_cons_iff.mp hmore
  rw [String.toList_ofList] at hmark
  subst hmark
  obtain ⟨front, back, rfl, rfl, rfl⟩ := tokens_split hsplit
  obtain ⟨text, rest, htext, hfront, htoken, hback⟩ := h.split
  refine ⟨hreader, ?_⟩
  obtain ⟨cs, hcs, rfl⟩ | ⟨rfl, hopen⟩ := htoken.literal
  · obtain ⟨inner, hread⟩ := hcs.readLiteral_closed
    simp only [hread]
    refine ⟨⟨fun _ => hcs.closes, fun _ => ⟨inner, [], rfl⟩⟩, ?_, nofun⟩
    rintro _ _ ⟨⟩
    rfl
  · obtain ⟨hread, hends⟩ := readLiteral_open hopen
    simp only [hread]
    refine ⟨⟨nofun, fun hmark => absurd hmark hends⟩, nofun, ?_⟩
    rintro _ ⟨⟩
    refine ⟨rfl, by rw [hback.eq_nil]; rfl, String.ofList text, ?_, ?_⟩
    · apply String.toList_inj.mp
      rw [htext]
      simp [Segment.text]
    · have hfront' : Decomposes (String.ofList text).toList front := by
        rwa [String.toList_ofList]
      exact hfront'.tokenize

theorem literal_ends_two :
    tokenize "x \"a\\\\\" \"b\\" = ["x", "\"a\\\\\"", "\"b\\"] ∧
      (∃ text, Value.readLiteral ['a', '\\', '\\', Quoted.mark] = .ok (text, [])) ∧
      ∃ f, Value.readLiteral ['b', '\\'] = .error f ∧ f.kind = .parse ∧
        ∃ front, "x \"a\\\\\" \"b\\" = front ++ "\"b\\" ∧
          tokenize front = ["x", "\"a\\\\\""] := by
  have hfirst : tokenize "x \"a\\\\\" \"b\\" = ["x"] ++ "\"a\\\\\"" :: ["\"b\\"] := by
    with_unfolding_all rfl
  have hlast : tokenize "x \"a\\\\\" \"b\\" = ["x", "\"a\\\\\""] ++ "\"b\\" :: [] :=
    hfirst
  obtain ⟨-, hcloses, hall, -⟩ := literal_ends hfirst rfl
  obtain ⟨text, rest, hread⟩ := hcloses.mpr ⟨['a', '\\', '\\'], rfl, rfl⟩
  obtain rfl := hall text rest hread
  obtain ⟨-, -, -, hfails⟩ := literal_ends hlast rfl
  obtain ⟨hkind, -, hfront⟩ := hfails Cause.openString.fault rfl
  exact ⟨hfirst, ⟨text, hread⟩, _, rfl, hkind, hfront⟩

end MiniLisp
