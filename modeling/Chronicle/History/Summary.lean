import Chronicle.History.Basic
import Chronicle.Text.Quoted

/-!
# Summaries

One line about a history, and one about its writer, for those who look for
faults.
-/

namespace Chronicle.History

/-- The word for a status. -/
def Status.word : Status → String
  | .building => "Building"
  | .completed => "Completed"
  | .cancelled => "Cancelled"

/-- One line about a history. -/
def summary (history : History) : String :=
  "StateSystem \x7b ssid: " ++ Text.quoted history.id
    ++ ", start_time: " ++ toString history.start
    ++ ", current_end_time: " ++ toString history.currentEnd
    ++ ", status: " ++ history.status.word ++ " \x7d"

/-- One line about the writer of a history. -/
def writerSummary (history : History) : String :=
  "StateSystemWriter \x7b ssid: " ++ Text.quoted history.id ++ " \x7d"

end Chronicle.History
