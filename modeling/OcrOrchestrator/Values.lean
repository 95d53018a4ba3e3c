import Mathlib.Data.Rat.Defs

/-!
# Values that cross a process boundary

The model endpoints answer JSON, Redis hashes store it, and the Python code in
between raises exceptions that callers tell apart by type.  This module fixes those
two vocabularies once.

Numbers are exact rationals.  A JSON object is kept as its list of members in the
order they were written; lookup takes the first one.
-/

namespace OcrOrchestrator

/-- A JSON value. -/
inductive Json where
  | null
  | bool (b : Bool)
  | num (q : ℚ)
  | str (s : String)
  | arr (xs : List Json)
  | obj (members : List (String × Json))

namespace Json

/-- The name of the Python type a JSON value is decoded to. -/
def pyType : Json → String
  | null => "NoneType"
  | bool _ => "bool"
  | num q => if q.den = 1 then "int" else "float"
  | str _ => "str"
  | arr _ => "list"
  | obj _ => "dict"

/-- Is the value a JSON object, the only kind that has a `get` method once decoded? -/
def isObj : Json → Bool
  | obj _ => true
  | _ => false

end Json

/-- The two model endpoints, as `ModelClient` names them. -/
inductive Endpoint where
  | layout
  | vlm
  deriving DecidableEq

/-- The string an endpoint carries in logs and error texts. -/
def Endpoint.name : Endpoint → String
  | layout => "layout"
  | vlm => "vlm"

/-- Python exceptions, as far as the code tells them apart.

`rateLimitTimeout` and `circuitOpen` are the two systemic refusals the pipeline
catches by name; `httpStatusError` is the one whose status `_degrade` reports;
`exception` is any other subclass of `Exception`; `baseException` is one that
`except Exception` does not catch. -/
inductive Exn where
  | rateLimitTimeout (endpoint : Endpoint) (retryAfterS waitedS : ℚ)
  | circuitOpen (endpoint : Endpoint) (retryAfterS : ℚ)
  | httpStatusError (status : ℕ) (text : String)
  | exception (typeName text : String)
  | baseException (typeName text : String)

namespace Exn

/-- `type(exc).__name__`. -/
def typeName : Exn → String
  | rateLimitTimeout _ _ _ => "RateLimitTimeout"
  | circuitOpen _ _ => "CircuitOpen"
  | httpStatusError _ _ => "HTTPStatusError"
  | exception name _ => name
  | baseException name _ => name

/-- `str(exc)`.  The two refusals render their durations; the rendering of a number is
left to `Repr`. -/
def text : Exn → String
  | rateLimitTimeout ep retryAfterS waitedS =>
      ep.name ++ ": no slot available; next free in " ++ reprStr retryAfterS ++
        "s (waited " ++ reprStr waitedS ++ "s)"
  | circuitOpen ep retryAfterS =>
      ep.name ++ ": circuit open, retry in " ++ reprStr retryAfterS ++ "s"
  | httpStatusError _ text => text
  | exception _ text => text
  | baseException _ text => text

/-- `isinstance(exc, Exception)`. -/
def isException : Exn → Bool
  | baseException _ _ => false
  | _ => true

/-- `isinstance(exc, (RateLimitTimeout, CircuitOpen))`, with the two attributes the
handler reads: the endpoint and the projected wait. -/
def refusal : Exn → Option (Endpoint × ℚ)
  | rateLimitTimeout ep retryAfterS _ => some (ep, retryAfterS)
  | circuitOpen ep retryAfterS => some (ep, retryAfterS)
  | _ => none

/-- A refusal is an ordinary exception, so `except Exception` would catch it too. -/
theorem isException_of_refusal {e : Exn} {x : Endpoint × ℚ} (h : e.refusal = some x) :
    e.isException = true := by
  cases e <;> simp_all [refusal, isException]

end Exn
end OcrOrchestrator
