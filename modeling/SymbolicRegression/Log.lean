/-!
Log records, which computations return beside their results.
-/

namespace SymbolicRegression

inductive LogLevel where
  | debug
  | info
  | warn
deriving DecidableEq, Repr

structure LogRecord where
  level : LogLevel
  text : String
deriving Repr

namespace LogRecord

def debug (text : String) : LogRecord := ⟨.debug, text⟩

def info (text : String) : LogRecord := ⟨.info, text⟩

def warn (text : String) : LogRecord := ⟨.warn, text⟩

/-- One line: the level, then the text. -/
def line (r : LogRecord) : String :=
  let level := match r.level with
    | .debug => "DEBUG"
    | .info => "INFO"
    | .warn => "WARN"
  s!"{level} {r.text}"

end LogRecord

end SymbolicRegression
