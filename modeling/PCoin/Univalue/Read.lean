import Mathlib.Data.List.TakeWhile

namespace pcoin.univalue

/-- `json_isspace`. -/
def isSpace (c : Char) : Bool := c = ' ' || c = '\t' || c = '\n' || c = '\r'

/-- `json_isdigit`. -/
def isDigit (c : Char) : Bool := '0' ≤ c && c ≤ '9'

/-- One step of `hatoui`. -/
def hexDigit (c : Char) : Option Nat :=
  if isDigit c then some (c.toNat - '0'.toNat)
  else if 'a' ≤ c ∧ c ≤ 'f' then some (c.toNat - 'a'.toNat + 10)
  else if 'A' ≤ c ∧ c ≤ 'F' then some (c.toNat - 'A'.toNat + 10)
  else none

/-- `hatoui` over the four characters of a `\u` escape. -/
def hatoui (digits : List Char) : Option Nat :=
  digits.foldlM (fun result c => (hexDigit c).map (16 * result + ·)) 0

/-- `JSONUTF8StringFilter`. A `char` of a `std::string` is the character of its code. -/
structure JSONUTF8StringFilter where
  str : List Char := []
  is_valid : Bool := true
  codepoint : Nat := 0
  state : Nat := 0
  surpair : Nat := 0

namespace JSONUTF8StringFilter

/-- `append_codepoint`. -/
def append_codepoint (f : JSONUTF8StringFilter) (codepoint : Nat) : JSONUTF8StringFilter :=
  let continuation (shift : Nat) := Char.ofNat (0x80 ||| ((codepoint >>> shift) &&& 0x3f))
  let bytes :=
    if codepoint ≤ 0x7f then [Char.ofNat codepoint]
    else if codepoint ≤ 0x7ff then [Char.ofNat (0xc0 ||| (codepoint >>> 6)), continuation 0]
    else if codepoint ≤ 0xffff then
      [Char.ofNat (0xe0 ||| (codepoint >>> 12)), continuation 6, continuation 0]
    else if codepoint ≤ 0x1fffff then
      [Char.ofNat (0xf0 ||| (codepoint >>> 18)), continuation 12, continuation 6, continuation 0]
    else []
  { f with str := f.str ++ bytes }

/-- `push_back_u`. -/
def push_back_u (f : JSONUTF8StringFilter) (codepoint : Nat) : JSONUTF8StringFilter :=
  let f := if f.state ≠ 0 then { f with is_valid := false } else f
  if 0xd800 ≤ codepoint ∧ codepoint < 0xdc00 then
    if f.surpair ≠ 0 then { f with is_valid := false } else { f with surpair := codepoint }
  else if 0xdc00 ≤ codepoint ∧ codepoint < 0xe000 then
    if f.surpair ≠ 0 then
      { f.append_codepoint (0x10000 ||| ((f.surpair - 0xd800) <<< 10) ||| (codepoint - 0xdc00)) with
        surpair := 0 }
    else { f with is_valid := false }
  else if f.surpair ≠ 0 then { f with is_valid := false }
  else f.append_codepoint codepoint

/-- `push_back`. -/
def push_back (f : JSONUTF8StringFilter) (c : Char) : JSONUTF8StringFilter :=
  let ch := c.toNat
  if f.state = 0 then
    if ch < 0x80 then { f with str := f.str ++ [c] }
    else if ch < 0xc0 then { f with is_valid := false }
    else if ch < 0xe0 then { f with codepoint := (ch &&& 0x1f) <<< 6, state := 6 }
    else if ch < 0xf0 then { f with codepoint := (ch &&& 0x0f) <<< 12, state := 12 }
    else if ch < 0xf8 then { f with codepoint := (ch &&& 0x07) <<< 18, state := 18 }
    else { f with is_valid := false }
  else
    let f := if ch &&& 0xc0 ≠ 0x80 then { f with is_valid := false } else f
    let state := f.state - 6
    let f := { f with state, codepoint := f.codepoint ||| ((ch &&& 0x3f) <<< state) }
    if state = 0 then f.push_back_u f.codepoint else f

/-- `finalize`. -/
def finalize (f : JSONUTF8StringFilter) : Bool := f.is_valid && f.state = 0 && f.surpair = 0

end JSONUTF8StringFilter

/-- `jtokentype`, with the text a number or a string carries. -/
inductive Token where
  | err
  | none
  | objOpen
  | objClose
  | arrOpen
  | arrClose
  | colon
  | comma
  | kwNull
  | kwTrue
  | kwFalse
  | number (text : String)
  | string (text : String)
  deriving DecidableEq, Repr

/-- `jsonTokenIsValue`. -/
def Token.isValue : Token → Bool
  | .kwNull | .kwTrue | .kwFalse | .number _ | .string _ => true
  | _ => false

def Token.isValueOpen (t : Token) : Bool := t.isValue || t = .objOpen || t = .arrOpen

/-- Part 2 of a number: a dot and the digits after it. -/
def scanFrac : List Char → Option (List Char × List Char)
  | '.' :: raw =>
    if raw.head?.any isDigit then some ('.' :: raw.takeWhile isDigit, raw.dropWhile isDigit) else none
  | raw => some ([], raw)

/-- The optional sign of part 3. -/
def scanSign : List Char → List Char × List Char
  | '-' :: raw => (['-'], raw)
  | '+' :: raw => (['+'], raw)
  | raw => ([], raw)

/-- Part 3 of a number: the exponent. -/
def scanExp : List Char → Option (List Char × List Char)
  | e :: raw =>
    if e = 'e' ∨ e = 'E' then
      let (sign, digits) := scanSign raw
      if digits.head?.any isDigit then
        some (e :: sign ++ digits.takeWhile isDigit, digits.dropWhile isDigit)
      else none
    else some ([], e :: raw)
  | [] => some ([], [])

/-- The `-` and digit cases of `getJsonToken`, `first` the character the token starts with. -/
def scanNumber (first : Char) (raw : List Char) : Token × List Char :=
  let firstDigit := if isDigit first then first :: raw else raw
  if firstDigit.head? = some '0' ∧ firstDigit.tail.head?.any isDigit then (.err, raw)
  -- A lone `-` at the end of the text is not refused here.
  else if first = '-' ∧ raw.head?.any (fun c => !isDigit c) then (.err, raw)
  else
    let int := first :: raw.takeWhile isDigit
    match scanFrac (raw.dropWhile isDigit) with
    | Option.none => (.err, raw)
    | some (frac, raw) =>
      match scanExp raw with
      | Option.none => (.err, raw)
      | some (exp, raw) => (.number (String.ofList (int ++ frac ++ exp)), raw)

/-- The single-character escapes of a string. -/
def escape : Char → Option Char
  | '"' => some '"'
  | '\\' => some '\\'
  | '/' => some '/'
  | 'b' => some '\x08'
  | 'f' => some '\x0c'
  | 'n' => some '\n'
  | 'r' => some '\r'
  | 't' => some '\t'
  | _ => Option.none

/-- The string case of `getJsonToken`, after its opening quote. -/
def scanString (writer : JSONUTF8StringFilter) : List Char → Option (JSONUTF8StringFilter × List Char)
  | [] => none
  | '\\' :: 'u' :: a :: b :: c :: d :: raw =>
    match hatoui [a, b, c, d] with
    | some codepoint => if raw = [] then none else scanString (writer.push_back_u codepoint) raw
    | Option.none => none
  | '\\' :: c :: raw =>
    match escape c with
    | some ch => scanString (writer.push_back ch) raw
    | Option.none => none
  | '\\' :: [] => none
  | '"' :: raw => some (writer, raw)
  | c :: raw => if c.toNat < 0x20 then none else scanString (writer.push_back c) raw

/-- `getJsonToken`: the next token and the text after it. -/
def getJsonToken (raw : List Char) : Token × List Char :=
  match raw.dropWhile isSpace with
  | [] => (.none, [])
  | '\x7b' :: raw => (.objOpen, raw)
  | '\x7d' :: raw => (.objClose, raw)
  | '[' :: raw => (.arrOpen, raw)
  | ']' :: raw => (.arrClose, raw)
  | ':' :: raw => (.colon, raw)
  | ',' :: raw => (.comma, raw)
  | 'n' :: 'u' :: 'l' :: 'l' :: raw => (.kwNull, raw)
  | 't' :: 'r' :: 'u' :: 'e' :: raw => (.kwTrue, raw)
  | 'f' :: 'a' :: 'l' :: 's' :: 'e' :: raw => (.kwFalse, raw)
  | '"' :: raw =>
    match scanString {} raw with
    | some (writer, rest) =>
      if writer.finalize then (.string (String.ofList writer.str), rest) else (.err, raw)
    | Option.none => (.err, raw)
  | c :: raw => if c = '-' ∨ isDigit c then scanNumber c raw else (.err, raw)

end pcoin.univalue

namespace pcoin.univalue

/-- `UniValue`; a number keeps its text. The keys and the values of an object are two lists. -/
inductive UniValue where
  | null
  | bool (val : Bool)
  | num (val : String)
  | str (val : String)
  | arr (values : List UniValue)
  | obj (keys : List String) (values : List UniValue)

namespace UniValue

def isNull : UniValue → Bool
  | null => true
  | _ => false

def isNum : UniValue → Bool
  | num _ => true
  | _ => false

def isStr : UniValue → Bool
  | str _ => true
  | _ => false

def isObject : UniValue → Bool
  | obj _ _ => true
  | _ => false

/-- `find_value`: `values.at` throws where an object has fewer values than keys. -/
def find_value (v : UniValue) (key : String) : Except String UniValue :=
  match v with
  | obj keys values =>
    match keys.idxOf? key with
    | some i =>
      match values[i]? with
      | some v => .ok v
      | none => .error "vector::_M_range_check"
    | none => .ok null
  | _ => .ok null

/-- `get_str`. -/
def get_str : UniValue → Except String String
  | str val => .ok val
  | _ => .error "JSON value is not of expected type string"

end UniValue

/-- `std::from_chars` on a signed type that holds the numbers from `lo` to `hi`. -/
def fromChars (lo hi : Int) (text : List Char) : Option (Int × List Char) :=
  let (negative, digits) :=
    match text with
    | '-' :: digits => (true, digits)
    | digits => (false, digits)
  let run := digits.takeWhile isDigit
  let magnitude : Nat := run.foldl (fun n c => 10 * n + (c.toNat - '0'.toNat)) 0
  let value : Int := if negative then -magnitude else magnitude
  if run = [] ∨ value < lo ∨ hi < value then none else some (value, digits.dropWhile isDigit)

/-- The integer a number's text writes in full, where it is in range. -/
def integer (lo hi : Int) (val : String) : Option Int :=
  match fromChars lo hi val.toList with
  | some (result, []) => some result
  | _ => none

/-- `getInt`. -/
def UniValue.getInt (lo hi : Int) : UniValue → Except String Int
  | .num val =>
    match integer lo hi val with
    | some result => .ok result
    | none => .error "JSON integer out of range"
  | _ => .error "JSON value is not of expected type number"

/-- `expectMask`. -/
structure Expect where
  objName : Bool := false
  colon : Bool := false
  arrValue : Bool := false
  value : Bool := false
  notValue : Bool := false

/-- The checks `read` makes of a token before it acts on it. -/
def Expect.take (e : Expect) (tok : Token) : Option Expect := do
  let e ←
    if e.value then
      if tok.isValueOpen then some { e with value := false } else none
    else if e.arrValue then
      if tok.isValueOpen || tok = .arrClose then some { e with arrValue := false } else none
    else if e.objName then
      match tok with
      | .objClose | .string _ => some e
      | _ => none
    else if e.colon then
      if tok = .colon then some { e with colon := false } else none
    else if tok = .colon then none
    else some e
  if e.notValue then
    if tok.isValueOpen then none else some { e with notValue := false }
  else some e

/-- An object or an array that is still open. -/
structure Frame where
  object : Bool
  keys : List String := []
  values : List UniValue := []

def Frame.push (f : Frame) (v : UniValue) : Frame := { f with values := f.values ++ [v] }

def Frame.close (f : Frame) : UniValue := if f.object then .obj f.keys f.values else .arr f.values

/-- The state of the loop of `read`. `stack` holds the open values, the innermost first; an inner
one joins its parent when it closes. -/
structure Reader where
  expect : Expect := {}
  last_tok : Token := .none
  stack : List Frame := []
  root : UniValue := .null

def MAX_JSON_DEPTH : Nat := 512

namespace Reader

/-- A complete value goes into the innermost open one, or is the result. -/
def put (r : Reader) (v : UniValue) : Reader :=
  match r.stack with
  | [] => { r with root := v }
  | top :: below => { r with stack := top.push v :: below }

/-- A scalar: `NOT_VALUE` is set except at the top. -/
def putScalar (r : Reader) (v : UniValue) : Reader :=
  match r.stack with
  | [] => r.put v
  | _ :: _ => { r.put v with expect.notValue := true }

def openValue (r : Reader) (object : Bool) : Option Reader :=
  if MAX_JSON_DEPTH < r.stack.length + 1 then none
  else
    let expect := if object then { r.expect with objName := true }
      else { r.expect with arrValue := true }
    some { r with expect, stack := { object } :: r.stack }

def closeValue (r : Reader) (object : Bool) : Option Reader :=
  match r.stack with
  | [] => none
  | top :: below =>
    if r.last_tok = .comma ∨ top.object ≠ object then none
    else some
      { Reader.put { r with stack := below } top.close with
        expect := { r.expect with objName := false, notValue := true } }

/-- The `switch` of the loop. -/
def act (r : Reader) : Token → Option Reader
  | .objOpen => r.openValue true
  | .arrOpen => r.openValue false
  | .objClose => r.closeValue true
  | .arrClose => r.closeValue false
  | .colon =>
    match r.stack with
    | [] => none
    | top :: _ => if top.object then some { r with expect.value := true } else none
  | .comma =>
    match r.stack with
    | [] => none
    | top :: _ =>
      if r.last_tok = .comma ∨ r.last_tok = .arrOpen then none
      else if top.object then some { r with expect.objName := true }
      else some { r with expect.arrValue := true }
  | .kwNull => some (r.putScalar .null)
  | .kwTrue => some (r.putScalar (.bool true))
  | .kwFalse => some (r.putScalar (.bool false))
  | .number text => some (r.putScalar (.num text))
  | .string text =>
    if r.expect.objName then
      match r.stack with
      | [] => none
      | top :: below => some
          { r with
            expect := { r.expect with objName := false, colon := true, notValue := true }
            stack := { top with keys := top.keys ++ [text] } :: below }
    else some (r.putScalar (.str text))
  | .err | .none => none

/-- One token. -/
def step (r : Reader) (tok : Token) : Option Reader := do
  let expect ← r.expect.take tok
  let r ← act { r with expect } tok
  return { r with last_tok := tok }

end Reader

/-- The loop of `read`. Each token takes at least one character, so `raw.length + 1` rounds are
enough. -/
def readLoop : Nat → Reader → List Char → Option (UniValue × List Char)
  | 0, _, _ => none
  | fuel + 1, r, raw =>
    let (tok, rest) := getJsonToken raw
    if tok = .none ∨ tok = .err then none
    else
      match r.step tok with
      | none => none
      | some r => if r.stack.isEmpty then some (r.root, rest) else readLoop fuel r rest

/-- `read`. -/
def read (raw : List Char) : Option UniValue :=
  match readLoop (raw.length + 1) {} raw with
  | some (v, rest) => if (getJsonToken rest).1 = .none then some v else none
  | none => none

end pcoin.univalue
