import MiniJava.Proofs.Grammar.Names
import MiniJava.Proofs.Grammar.Nesting
import MiniJava.Proofs.Grammar.Refusals
import MiniJava.Proofs.Source.Excerpts
import MiniJava.Proofs.Typing.Errors
/-!
# Reported errors

What is reported of a text that fails points into it, whichever phase failed, and its rendering shows what it points to
(`Source.errors_point_into_text`).  Faults stand where the lexer gave up, refusals at a token or at the end of the text,
and semantic errors at spans of the tree, which run over tokens.
-/
namespace MiniJava

namespace Source

variable {s : Source} {ts : List (Located Token)} {dump : Dump} {failure : Failure}

/-! ## Which phase failed -/

theorem program_eq_error : s.program.result = .error failure ↔
    (∃ es, s.tokens.result = .error es ∧ .lexical es = failure) ∨
      ∃ ts, s.tokens.result = .ok ts ∧ ∃ e, Program.parse s.eofSpan ts = .error e ∧ .grammatical e = failure := by
  simp only [program, Logged.result_bind, Logged.result_mapError, Logged.result_ofExcept, bind_eq_error, mapError_eq_ok,
    mapError_eq_error]

theorem elaborated_eq_error : (s.elaborated dump).result = .error failure ↔
    s.program.result = .error failure ∨
      ∃ p, s.program.result = .ok p ∧ ∃ e, (p.elaborate dump).result = .error e ∧ .semantic e = failure := by
  simp only [elaborated, Logged.result_bind, Logged.result_mapError, bind_eq_error, mapError_eq_error]

/-! ## Where it failed -/

/-- **A span that runs over tokens points into their text.** -/
theorem Lined.runs_pointsInto (hs : s.Lined) (h : s.tokens.result = .ok ts) {span : Span} (hruns : Grammar.Runs ts span) :
    s.PointsInto span := by
  have hbounds := hs.token_bounds h
  obtain ⟨t, ht, hstart⟩ := hruns.start_mem
  obtain ⟨u, hu, hstop⟩ := hruns.stop_mem
  have hstands : s.Stands span.start := hstart ▸ (hbounds t ht).1
  have hle : span.stop ≤ s.eof := hstop ▸ (hbounds u hu).2.2
  exact hstands.pointsInto hs (hruns.forward (ordered_tokens h)) hle

theorem Lined.refusal_pointsInto (hs : s.Lined) (h : s.tokens.result = .ok ts) {e : Located SyntaxError}
    (he : Program.parse s.eofSpan ts = .error e) : s.PointsInto e.span := by
  rcases Program.span_of_parse_eq_error he with heof | ⟨t, ht, hspan⟩
  · rw [heof]
    exact s.stands_eof.pointsInto_single hs
  · rw [hspan]
    exact hs.runs_pointsInto h (.of_mem ht)

theorem Lined.mistake_pointsInto (hs : s.Lined) {p : Program} (hp : s.program.result = .ok p) {e : Located SemanticError}
    (he : (p.elaborate dump).result = .error e) : s.PointsInto e.span := by
  obtain ⟨ts, hts, hgoal⟩ := program_eq_ok.1 hp
  exact hs.runs_pointsInto hts (Program.span_of_elaborate_eq_error hgoal.placed he)

/-- **Whatever fails is reported, with errors that point into the text.** -/
theorem Lined.exists_report (hs : s.Lined) (h : (s.elaborated dump).result = .error failure) :
    ∃ report, failure.report? = some report ∧ report.errors ≠ [] ∧ ∀ error ∈ report.errors, s.PointsInto error.span := by
  rcases elaborated_eq_error.1 h with h | ⟨p, hp, e, he, rfl⟩
  · rcases program_eq_error.1 h with ⟨es, hes, rfl⟩ | ⟨ts, hts, e, he, rfl⟩
    · obtain ⟨hne, rfl⟩ := tokens_eq_error.1 hes
      refine ⟨_, rfl, mt List.map_eq_nil_iff.1 hne, List.forall_mem_map.2 ?_⟩
      exact hs.fault_pointsInto
    · exact ⟨_, rfl, List.cons_ne_nil _ _, List.forall_mem_singleton.2 (hs.refusal_pointsInto hts he)⟩
  · exact ⟨_, rfl, List.cons_ne_nil _ _, List.forall_mem_singleton.2 (hs.mistake_pointsInto hp he)⟩

/-! ## What is shown -/

/-- **Every reported error points into the text.**  Whatever the text, if its tokens, its tree or its elaboration fail, the
failure is reported with at least one error, and the report is the entries of the errors and a summary.  Each error has a
span that starts before it stops, at a character of the text or at its end, on lines from 1 to the one behind the last; and
below what the error is and where, its entry shows a row for each of these lines, with all bars in one column, and at least
one caret. -/
theorem errors_point_into_text (name text : String) (dump : Dump) (failure : Failure)
    (h : ((ofText name text).elaborated dump).result = .error failure) :
    ∃ report, failure.report? = some report ∧ report.errors ≠ [] ∧
      report.lines (ofText name text) =
        report.errors.flatMap (Report.entry (ofText name text) report.kind) ++ [Report.summary report.errors.length] ∧
      ∀ error ∈ report.errors, (ofText name text).PointsInto error.span ∧
        ∃ margin rows marks, Report.entry (ofText name text) report.kind error =
            [report.kind ++ ": " ++ error.val, " --> " ++ error.span.place name, margin] ++ rows ++ [marks, ""] ∧
          Report.Framed (ofText name text) error.span margin rows marks := by
  have hs := lined_ofText name text
  obtain ⟨report, hreport, hne, hinto⟩ := hs.exists_report h
  refine ⟨report, hreport, hne, if_neg (mt List.isEmpty_iff.1 hne), fun error herror => ?_⟩
  have herror := hinto error herror
  obtain ⟨-, hcolumn, -⟩ := herror.stands.bounds hs
  exact ⟨herror, Report.framed_entry report.kind herror.one_le_start hcolumn herror.start_le_stop⟩

end Source

namespace Sample

/-- A text that prints a comparison, which stands on two lines and ends further left than it begins. -/
def mistyped : String :=
  "class Main \x7b public static void main(String[] args) \x7b\n  System.out.println(1 <\n 2); \x7d \x7d"

/-- What is wrong with it, and where. -/
def mismatch : Located String := ⟨"Type mismatch: expected `int`, found `boolean`", ⟨2, 22⟩, ⟨3, 3⟩⟩

end Sample

/-- What is shown of the comparison. -/
theorem Source.errors_point_into_text_on_sample : ∃ failure report,
    ((ofText "<sample>" Sample.mistyped).elaborated ⟨false, false⟩).result = .error failure ∧
    failure.report? = some report ∧ report.errors = [Sample.mismatch] ∧
    report.lines (ofText "<sample>" Sample.mistyped) =
      ["Semantic error: Type mismatch: expected `int`, found `boolean`", " --> <sample>:[2:22-3:2]", "  |",
        "2 |   System.out.println(1 <", "3 |  2); \x7d \x7d", "  |  ^^^^^^^^^^^^^^^^^^^^^", "", "Build failed with 1 error"] ∧
    ∀ error ∈ report.errors, (ofText "<sample>" Sample.mistyped).PointsInto error.span := by
  obtain ⟨p, e, hp, he, hmismatch⟩ : ∃ p e, (ofText "<sample>" Sample.mistyped).program.result = .ok p ∧
      (p.elaborate ⟨false, false⟩).result = .error e ∧ e.map SemanticError.message = Sample.mismatch :=
    ⟨_, _, by cbv, by rfl, by rfl⟩
  have hfailure := Source.elaborated_eq_error.2 (.inr ⟨p, hp, e, he, rfl⟩)
  obtain ⟨report, hreport, -, -, hinto⟩ := Source.errors_point_into_text "<sample>" Sample.mistyped _ _ hfailure
  have hshown : report = ⟨"Semantic error", [Sample.mismatch]⟩ := by
    rw [← hmismatch]
    exact (Option.some.inj hreport).symm
  refine ⟨_, report, hfailure, hreport, congrArg Report.errors hshown, ?_, fun error herror => (hinto error herror).1⟩
  rw [hshown]
  decide

end MiniJava
