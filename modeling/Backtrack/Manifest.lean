-- What the library is known by: its version and the names that it offers.
namespace Backtrack.Manifest

/-- The version of the library. -/
def version : String := "0.1.0"

/-- The names that the library offers, in alphabetical order with capitals first. -/
def names : List String :=
  ["Expected", "Failure", "GrammarError", "Outcome", "ParseError", "ParseFailure", "ParseReport",
   "ParseSuccess", "Parser", "RepeatedEmptyMatchError", "ResultStream", "StepFunction", "Success",
   "all_chars", "any_char", "choice", "digit", "digits", "eos", "fail", "letter", "letters",
   "line_and_column", "rec", "regexp", "report_from_stream", "seq", "source_line", "string",
   "succeed", "whitespace"]

end Backtrack.Manifest
