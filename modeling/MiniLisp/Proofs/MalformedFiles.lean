import MiniLisp.Proofs.Scripts

namespace MiniLisp

open Value Run

section Rejecting

variable {fuel levels : Nat} {global : ScopeId} {w : World} {path c : String}

/-- Loading a file evaluates, in the global scope, exactly the forms that are taken for those of the
file. Where no forms are taken it fails with an error of the reader; nothing has happened then besides
the call, and `eval` has not run. -/
theorem loading_cases (h : w.heap.LoadsFiles global) (hfile : w.files.read path = .ok c) :
    (∀ forms, Taken (Token.scan c.toList) forms →
      (evalWithin (fuel + 2) (levels + 5) (loadingCall path) global).outcome w =
        (evalWithin (fuel + 2) (levels + 4) (ofList (.sym "do" :: forms)) global).outcome
          (w.calling global path)) ∧
    ((∀ forms, ¬ Taken (Token.scan c.toList) forms) →
      ∃ fault, fault.kind ∈ [Kind.parse, Kind.paren, Kind.hash] ∧
        (evalWithin (fuel + 2) (levels + 5) (loadingCall path) global).outcome w =
          some (.error fault, w.calling global path) ∧
        NeverRuns .eval (fuel + 2) (levels + 5) (loadingCall path) global w) := by
  constructor
  · intro forms htaken
    exact loading_outcome (layered_evalWithin _) h hfile htaken.read
  · intro hnone
    obtain ⟨fault, hread, hkind⟩ := read_error_of_not_taken hnone
    have hends : (evalWithin (fuel + 2) (levels + 5) (loadingCall path) global).outcome w =
        some (.error fault, w.calling global path) :=
      loading_rejected (layered_evalWithin _).under (Supervisor.spares_idle .eval) h hfile hread
    refine ⟨fault, hkind, hends, fun instead => ?_⟩
    rw [hends]
    exact loading_rejected (layeredUnder_evalUnder _ _) (Supervisor.spares_replacing .eval instead) h
      hfile hread

end Rejecting

/-- A text that goes on behind a closing bracket which nothing has opened. -/
def straySource : String :=
  "1) 2"

theorem scan_straySource : Token.scan straySource.toList =
    ([.word ['1']] ++ []) ++ .closing .round :: [.word ['2']] := by
  with_unfolding_all rfl

theorem straySource_taken : Taken (Token.scan straySource.toList) [.int 1] :=
  .closed scan_straySource (.cons (.atom (.int (.plain (.single rfl)))) (.nil 511))

theorem Value.Row.not_closing {levels : Nat} {b : Bracket} {ts : List Token} {vs : List Value} :
    ¬ Row levels (.closing b :: ts) vs := by
  intro h
  generalize hts : Token.closing b :: ts = us at h
  cases h with
  | nil => cases hts
  | cons first rest =>
    cases first with
    | atom made =>
      cases hts
      exact made.not_closing b rfl
    | bracket | mark | withMeta => cases hts

/-- The text is no row of forms. -/
theorem not_row_straySource (forms : List Value) : ¬ Row 512 (Token.scan straySource.toList) forms := by
  intro hrow
  rw [scan_straySource] at hrow
  obtain ⟨later, hlater⟩ := hrow.tail_of_word
  exact hlater.not_closing

/-- Files with this text. -/
def strayFile : Files :=
  ⟨[(["f"], straySource.toUTF8)]⟩

theorem read_strayFile : strayFile.read "f" = .ok straySource := by
  with_unfolding_all rfl

/-- What is taken for the forms of the text comes to 1. -/
theorem stray_sequence {w : World} {global : ScopeId} (h : w.heap.LoadsFiles global) (levels : Nat) :
    (evalWithin 2 (levels + 1) (ofList [.sym "do", .int 1]) global).outcome
      (w.calling global "f") = some (.ok (.int 1), w.calling global "f") := by
  have hdo : ∀ id note,
      (w.calling global "f").heap.scopes.lookup global "do" ≠ some (.fn id true note) := by
    intro id note
    rw [lookup_calling_global "f" h]
    exact h.sequence id note
  have hstep : (evalStep (evalWithin 2 levels) 2 (ofList [.sym "do", .int 1]) global).outcome
      (w.calling global "f") = some (.ok (.tail (.int 1) global), w.calling global "f") :=
    evalStep_same (Heap.expander?_of_lookup _ _ hdo)
  exact (evalSteps_tail hstep).trans rfl

/-- A text with a list that is never closed. -/
def openSource : String :=
  "(f 1"

def openFile : Files :=
  ⟨[(["f"], openSource.toUTF8)]⟩

set_option maxRecDepth 8000 in
/-- No forms are taken for those of the text. -/
theorem not_taken_openSource (forms : List Value) : ¬ Taken (Token.scan openSource.toList) forms := by
  intro h
  have hread : Value.read "(do (f 1\nnil)" = .error Cause.unclosed.fault := by
    refine read_of_tokens rfl ?_
    with_unfolding_all rfl
  have htaken := Taken.read h
  change Value.read "(do (f 1\nnil)" = _ at htaken
  rw [hread] at htaken
  cases htaken

/-- In a new global scope a file is loaded up to the stray bracket without any error, and one that is
never closed is rejected. -/
theorem loading_cases_strayAndOpen :
    (∃ global w, (Session.newGlobal 2).outcome (World.start strayFile "" 0) = some (.ok global, w) ∧
      (evalWithin 2 5 (loadingCall "f") global).outcome w =
        some (.ok (.int 1), w.calling global "f")) ∧
    ∃ global w fault, (Session.newGlobal 2).outcome (World.start openFile "" 0) =
        some (.ok global, w) ∧
      (evalWithin 2 5 (loadingCall "f") global).outcome w =
        some (.error fault, w.calling global "f") ∧
      NeverRuns .eval 2 5 (loadingCall "f") global w := by
  constructor
  · obtain ⟨global, w, hnew, -⟩ := Session.newGlobal_makes 1 strayFile "" 0
    obtain ⟨hloads, hfiles⟩ := Session.newGlobal_loadsFiles hnew
    have hfile : w.files.read "f" = .ok straySource := by
      rw [hfiles]
      exact read_strayFile
    refine ⟨global, w, hnew, ?_⟩
    rw [(loading_cases hloads hfile).1 [.int 1] straySource_taken]
    exact stray_sequence hloads 3
  · obtain ⟨global, w, hnew, -⟩ := Session.newGlobal_makes 1 openFile "" 0
    obtain ⟨hloads, hfiles⟩ := Session.newGlobal_loadsFiles hnew
    have hfile : w.files.read "f" = .ok openSource := by
      rw [hfiles]
      with_unfolding_all rfl
    obtain ⟨fault, -, hends, hnever⟩ := (loading_cases hloads hfile).2 not_taken_openSource
    exact ⟨global, w, fault, hnew, hends, hnever⟩

/-- A file that is not well formed need not be rejected: the text of this one is no row of forms, and
yet loading it in a new global scope evaluates its first form and ends well. -/
theorem malformed_file_loads :
    ∃ global w, (Session.newGlobal 2).outcome (World.start strayFile "" 0) = some (.ok global, w) ∧
      w.files.read "f" = .ok straySource ∧
      (∀ forms, ¬ Row 512 (Token.scan straySource.toList) forms) ∧
      (eval 2 (loadingCall "f") global).outcome w = some (.ok (.int 1), w.calling global "f") := by
  obtain ⟨global, w, hnew, -⟩ := Session.newGlobal_makes 1 strayFile "" 0
  obtain ⟨hloads, hfiles⟩ := Session.newGlobal_loadsFiles hnew
  have hfile : w.files.read "f" = .ok straySource := by
    rw [hfiles]
    exact read_strayFile
  refine ⟨global, w, hnew, hfile, not_row_straySource, ?_⟩
  rw [eval, maxEvalDepth, loading_outcome (layered_evalWithin 2) hloads hfile straySource_taken.read]
  exact stray_sequence hloads 198

end MiniLisp
