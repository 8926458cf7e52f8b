import Mathlib.Data.List.DropRight
import OpenWindows.Engines.Compile
import OpenWindows.Engines.Shell

/-!
# The lines of the structured front-ends

`py_tokenize` cuts a line into numbers, names, operators and string literals.  The literals go
to the pool.  A line is a C string without its NUL.  `py_collect`, `js_collect` and
`lua_collect` turn the lines of a manifest into statements.
-/

namespace Engines

/-! ## Names -/

/-- A character that a name begins with. -/
def isNameStart (c : UInt8) : Bool :=
  (97 ≤ c && c ≤ 122) || (65 ≤ c && c ≤ 90) || c == 95

theorem isNameChar_zero : isNameChar 0 = false := rfl

theorem isNameChar_of_start {c : UInt8} (h : isNameStart c = true) : isNameChar c = true := by
  simp only [isNameStart, isNameChar, Bool.or_eq_true] at h ⊢
  rcases h with (h | h) | h
  · exact .inl (.inl (.inl h))
  · exact .inl (.inl (.inr h))
  · exact .inr h

/-- The name that a text begins with, cut to what fits a `char[16]`. -/
def nameAt (s : List UInt8) : Ident where
  chars := (s.takeWhile isNameChar).take 15
  fits := List.length_take_le _ _
  noNul h := by
    have hchar := List.mem_takeWhile_imp (List.mem_of_mem_take h)
    rw [isNameChar_zero] at hchar
    cases hchar

/-! ## Tokens -/

def isDigit (c : UInt8) : Bool := 48 ≤ c && c ≤ 57

def digitsValue (ds : List UInt8) : BitVec 64 :=
  ds.foldl (fun v c => v * 10 + BitVec.ofNat 64 (c.toNat - 48)) 0

/-- The rest of a string literal behind its opening quote, decoded into the pool, with the
text behind the closing quote. -/
def pyString : StringPool → List UInt8 → Except Status (StringPool × List UInt8)
  | _, [] => .error .errSyntax
  | P, [c] =>
    if c = 34 then .ok (P, [])
    else
      match P.push c with
      | none => .error .banScratch
      | some _ => .error .errSyntax
  | P, c :: d :: cs =>
    if c = 34 then .ok (P, d :: cs)
    else if c = 92 then
      match P.push (escaped d) with
      | none => .error .banScratch
      | some P => pyString P cs
    else
      match P.push c with
      | none => .error .banScratch
      | some P => pyString P (d :: cs)

def pyOperator : List UInt8 → Option (PyOp × List UInt8)
  | 61 :: 61 :: cs => some (.eq, cs)
  | 33 :: 61 :: cs => some (.ne, cs)
  | 60 :: 61 :: cs => some (.le, cs)
  | 62 :: 61 :: cs => some (.ge, cs)
  | 60 :: cs => some (.lt, cs)
  | 62 :: cs => some (.gt, cs)
  | 43 :: cs => some (.add, cs)
  | 45 :: cs => some (.sub, cs)
  | 42 :: cs => some (.mul, cs)
  | 47 :: cs => some (.div, cs)
  | 37 :: cs => some (.mod, cs)
  | 40 :: cs => some (.lp, cs)
  | 41 :: cs => some (.rp, cs)
  | 61 :: cs => some (.assign, cs)
  | 58 :: cs => some (.colon, cs)
  | _ => none

def pyToken (c : UInt8) (cs : List UInt8) (P : StringPool) :
    Except Status (Tok × List UInt8 × StringPool) :=
  if isDigit c then
    .ok (.num (digitsValue ((c :: cs).takeWhile isDigit)), (c :: cs).dropWhile isDigit, P)
  else if isNameStart c then
    .ok (.ident (nameAt (c :: cs)), (c :: cs).dropWhile isNameChar, P)
  else if c = 34 then
    match pyString P cs with
    | .error e => .error e
    | .ok (P', rest) =>
      .ok (.str (UInt32.ofNat P.bytes.length)
        (UInt32.ofNat (P'.bytes.length - P.bytes.length)), rest, P')
  else
    match pyOperator (c :: cs) with
    | none => .error .errSyntax
    | some (o, rest) => .ok (.op o, rest, P)

/-- An array of at most `MENG_PY_MAX_TOK` tokens. -/
structure PyToks where
  toks : List Tok
  fits : toks.length ≤ pyMaxTok

/-- `tk[nt++] = t`. -/
def PyToks.snoc (T : PyToks) (t : Tok) (h : ¬ T.toks.length ≥ pyMaxTok) : PyToks :=
  ⟨T.toks ++ [t], by rw [List.length_append]; exact Nat.not_le.1 h⟩

/-- The loop of `py_tokenize`.  The count bounds its turns, each of which consumes a
character. -/
def pyTokenizeLoop : Nat → List UInt8 → PyToks → StringPool → Except Status (PyToks × StringPool)
  | 0, _, T, P => .ok (T, P)
  | _ + 1, [], T, P => .ok (T, P)
  | n + 1, c :: cs, T, P =>
    if c = 32 ∨ c = 9 ∨ c = 13 then pyTokenizeLoop n cs T P
    else if c = 35 then .ok (T, P)
    else if h : T.toks.length ≥ pyMaxTok then .error .errShortOut
    else
      match pyToken c cs P with
      | .error e => .error e
      | .ok (t, rest, P) => pyTokenizeLoop n rest (T.snoc t h) P

/-- `py_tokenize`, which all its callers give room for `MENG_PY_MAX_TOK` tokens. -/
def pyTokenize (s : List UInt8) (P : StringPool) : Except Status (PyToks × StringPool) :=
  pyTokenizeLoop s.length s ⟨[], Nat.zero_le _⟩ P

/-! ## The line classifiers

`py_collect`, `js_collect` and `lua_collect` turn the lines of a manifest into statements.
Each keeps at most 127 characters of a line, takes its indentation off, strips the comment and
decides by the first word what the line is.  `js_collect` and `lua_collect` scan the target of
an assignment themselves and tokenize what is behind the `=`.

A write outside a local array is `CollectStop.overrun`.
-/

/-- Why a classifier gives no statements. -/
inductive CollectStop where
  | status (st : Status)
  /-- A write outside a local array. -/
  | overrun
  deriving DecidableEq, Repr

/-- `MENG_PY_MAX_STMTS`. -/
def pyMaxStmts : Nat := 64

/-! ### Lines -/

/-- The lines of a manifest.  The count bounds the turns of the loop. -/
def manifestLines : Nat → List UInt8 → List (List UInt8)
  | 0, _ => []
  | _ + 1, [] => []
  | n + 1, c :: cs =>
    (c :: cs).takeWhile (· ≠ 10) :: manifestLines n (((c :: cs).dropWhile (· ≠ 10)).drop 1)

/-- `linebuf`: at most 127 characters, where the length is a `uint32_t`. -/
def lineBuf (line : List UInt8) : List UInt8 := cString (line.take (min (line.length % 2 ^ 32) 127))

def isTab (c : UInt8) : Bool := c == 32 || c == 9

/-- The text with leading blanks and tabs skipped. -/
def skipTabs (s : List UInt8) : List UInt8 := s.dropWhile isTab

/-- The text up to a comment outside string literals.  `opens` tells where a comment begins. -/
def stripComment (opens : List UInt8 → Bool) : Bool → List UInt8 → List UInt8
  | _, [] => []
  | q, c :: cs =>
    if c = 34 then c :: stripComment opens (!q) cs
    else if opens (c :: cs) && !q then []
    else c :: stripComment opens q cs

/-- The length of a text without the trailing characters that `p` allows. -/
def trimmed (p : UInt8 → Bool) (s : List UInt8) : Nat := (s.rdropWhile p).length

/-- The part of the line `t` from `rest` up to the position `e`, as much as `buf[96]` holds. -/
def payloadText (t rest : List UInt8) (e : Nat) : List UInt8 :=
  (rest.take (e - (t.length - rest.length))).take 95

/-- `e` without a closing parenthesis in front of it, if there is one behind `rest`. -/
def dropParen (t rest : List UInt8) (e : Nat) : Nat :=
  if e > t.length - rest.length ∧ t[e - 1]? = some 41 then e - 1 else e

/-- What a line says. -/
inductive Found where
  | skip
  | elseLine
  | assign (target : Ident) (payload : List UInt8)
  | other (kind : StmtKind) (payload : List UInt8)

/-- The statement of an assignment: the target in front of the tokens of its value. -/
def assignStmt (indent : Nat) (target : Ident) (T : PyToks) : Except CollectStop Stmt :=
  if h : T.toks.length + 1 > pyMaxTok then .error (.status .errSyntax)
  else .ok ⟨indent, .sAssign, .ident target :: T.toks, by simpa using h⟩

/-- The end of the loop bodies of `js_collect` and `lua_collect`.  `n` statements are there
already. -/
def finishLine (n indent : Nat) (P : StringPool) :
    Found → Except CollectStop (Option Stmt × StringPool)
  | .skip => .ok (none, P)
  | .elseLine =>
    if n ≥ pyMaxStmts then .error (.status .errShortOut)
    else .ok (some ⟨indent, .sElse, [], Nat.zero_le _⟩, P)
  | .assign target payload =>
    match pyTokenize payload P with
    | .error e => .error (.status e)
    | .ok (T, P) =>
      if n ≥ pyMaxStmts then .error (.status .errShortOut)
      else
        match assignStmt indent target T with
        | .error e => .error e
        | .ok s => .ok (some s, P)
  | .other kind payload =>
    match pyTokenize payload P with
    | .error e => .error (.status e)
    | .ok (T, P) =>
      if n ≥ pyMaxStmts then .error (.status .errShortOut)
      else .ok (some ⟨indent, kind, T.toks, T.fits⟩, P)

/-- A loop body: it gets a line, the number of statements so far and the pool. -/
abbrev LineFn : Type :=
  List UInt8 → Nat → StringPool → Except CollectStop (Option Stmt × StringPool)

/-- The loop over the lines, with the statements so far. -/
def collectLines (line : LineFn) :
    List (List UInt8) → List Stmt → StringPool → Except CollectStop (List Stmt × StringPool)
  | [], ss, P => .ok (ss, P)
  | l :: ls, ss, P =>
    match line l ss.length P with
    | .error e => .error e
    | .ok (none, P) => collectLines line ls ss P
    | .ok (some s, P) => collectLines line ls (ss ++ [s]) P

/-! ### `py_collect` -/

/-- Whether the last token is a colon. -/
def endsInColon (tk : List Tok) : Bool := tk.getLast? == some (.op .colon)

/-- The class of a tokenized line, `none` for a syntax error. -/
def pyKind : List Tok → Option StmtKind
  | .ident x :: rest =>
    let nt := rest.length + 1
    if x.chars = ascii ['p', 'r', 'i', 'n', 't'] then if nt < 2 then none else some .sPrint
    else if x.chars = ascii ['w', 'h', 'i', 'l', 'e'] then
      if nt < 3 ∨ ¬ endsInColon rest then none else some .sWhile
    else if x.chars = ascii ['i', 'f'] then
      if nt < 3 ∨ ¬ endsInColon rest then none else some .sIf
    else if x.chars = ascii ['e', 'l', 's', 'e'] then
      if nt > 2 ∨ (nt = 2 ∧ rest ≠ [.op .colon]) then none else some .sElse
    else if nt ≥ 3 ∧ rest.head? = some (.op .assign) then some .sAssign
    else none
  | _ => none

/-- The loop body of `py_collect`. -/
def pyLine : LineFn := fun line n P =>
  let buf := lineBuf line
  let text := stripComment (fun s => s.head? == some 35) false (skipTabs buf)
  if text.dropWhile (· = 32) = [] then .ok (none, P)
  else
    match pyTokenize text P with
    | .error e => .error (.status e)
    | .ok (T, P) =>
      if n ≥ pyMaxStmts then .error (.status .errShortOut)
      else
        match pyKind T.toks with
        | none => .error (.status .errSyntax)
        | some kind => .ok (some ⟨buf.length - (skipTabs buf).length, kind, T.toks, T.fits⟩, P)

/-- `py_collect`. -/
def pyCollect (manifest : List UInt8) : Except CollectStop (List Stmt × StringPool) :=
  collectLines pyLine (manifestLines manifest.length manifest) [] .empty

/-! ### `js_collect` -/

/-- The text behind a word. -/
def behind (w : List Char) (s : List UInt8) : Option (List UInt8) :=
  if (ascii w).isPrefixOf s then some (s.drop w.length) else none

/-- The parenthesised payload of `print`, `while` and `if`. -/
def jsParen (kind : StmtKind) (t rest : List UInt8) (e : Nat) : Except CollectStop Found :=
  match skipTabs rest with
  | 40 :: rest => .ok (.other kind (payloadText t rest (dropParen t rest e)))
  | _ => .error (.status .errSyntax)

/-- The target of an assignment at the head of `s`, which is copied to `payload[96]`, and the
text behind the `=`. -/
def jsTarget (s : List UInt8) : Except CollectStop (Ident × List UInt8) :=
  if (s.takeWhile isNameChar).length ≥ 96 then .error .overrun
  else
    match skipTabs (s.dropWhile isNameChar) with
    | 61 :: rest => .ok (nameAt s, skipTabs rest)
    | _ => .error (.status .errSyntax)

/-- The text behind `let` or `var` and a blank. -/
def behindLet (t : List UInt8) : Option (List UInt8) :=
  match behind ['l', 'e', 't'] t, behind ['v', 'a', 'r'] t with
  | some (c :: cs), _ => if isTab c then some (c :: cs) else none
  | _, some (c :: cs) => if isTab c then some (c :: cs) else none
  | _, _ => none

/-- Classify the line `t`, which begins with a character that is not blank. -/
def jsClassify (t : List UInt8) : Except CollectStop Found :=
  let e := trimmed (fun c => isTab c || c == 59 || c == 123 || c == 125) t
  match behindLet t with
  | some rest =>
    match jsTarget (skipTabs rest) with
    | .error err => .error err
    | .ok (x, rest) => .ok (.assign x (payloadText t rest e))
  | none =>
    match behind ['p', 'r', 'i', 'n', 't'] t with
    | some rest => jsParen .sPrint t rest e
    | none =>
      match behind ['w', 'h', 'i', 'l', 'e'] t with
      | some rest => jsParen .sWhile t rest e
      | none =>
        match behind ['i', 'f'] t with
        | some rest => jsParen .sIf t rest e
        | none =>
          -- NAME = expr, and every other line is skipped
          if t.head?.any isNameStart ∧
              (skipTabs (t.dropWhile isNameChar)).head? = some 61 then
            match jsTarget t with
            | .error err => .error err
            | .ok (x, rest) => .ok (.assign x (payloadText t rest e))
          else .ok .skip

/-- What a line of `js_collect` is. -/
def jsFound (text : List UInt8) : Except CollectStop Found :=
  let t := skipTabs text
  if t = [] then .ok .skip
  else if t = [125] then .ok .skip
  else if (behind ['e', 'l', 's', 'e'] (t.dropWhile fun c => c == 32 || c == 125 || c == 123)).isSome
    then .ok .elseLine
  else jsClassify t

/-- The loop body of `js_collect`. -/
def jsLine : LineFn := fun line n P =>
  let buf := lineBuf line
  let text := stripComment (fun s => s.head? == some 47 && s.tail.head? == some 47) false
    (skipTabs buf)
  match jsFound text with
  | .error e => .error e
  | .ok found => finishLine n (buf.length - (skipTabs buf).length) P found

/-- `js_collect`. -/
def jsCollect (manifest : List UInt8) : Except CollectStop (List Stmt × StringPool) :=
  collectLines jsLine (manifestLines manifest.length manifest) [] .empty

/-! ### `lua_collect` -/

/-- `lua_word`: the text begins with a word that no name character follows. -/
def luaWord (w : List Char) (s : List UInt8) : Bool :=
  match behind w s with
  | some rest => !(rest.head?.any isNameChar)
  | none => false

/-- How much of the text stands before a word, in the first `len` characters. -/
def luaSeek (w : List Char) : Nat → List UInt8 → Nat
  | len, [] => len
  | len, c :: cs =>
    if w.length ≤ len then
      if luaWord w (c :: cs) then 0 else luaSeek w (len - 1) cs + 1
    else len

/-- The condition of `while` and `if`, up to the word that ends it. -/
def luaCond (kind : StmtKind) (w : List Char) (t rest : List UInt8) (e : Nat) : Found :=
  let rest := skipTabs rest
  let m := t.length - rest.length
  .other kind (payloadText t rest (m + luaSeek w (e - m) rest))

/-- The target of an assignment, as it is left in the name of a token that held the characters
`stale` before.  Only the characters of the target are written, and a NUL in the last place. -/
def luaTarget (stale : List UInt8) (s : List UInt8) : Ident :=
  let run := s.takeWhile isNameChar
  { chars := cString ((run ++ stale.drop run.length).take 15)
    fits := (List.takeWhile_prefix _).length_le.trans (List.length_take_le _ _)
    noNul := fun h => by
      have hne := List.mem_takeWhile_imp h
      simp at hne }

/-- What a line of `lua_collect` is.  `stale` is what the name of the target held before. -/
def luaFound (stale text : List UInt8) : Except CollectStop Found :=
  let t := skipTabs text
  if t = [] then .ok .skip
  else if luaWord ['e', 'n', 'd'] t ∧ (t.drop 3).head?.all isTab then .ok .skip
  else
    let e := trimmed (fun c => isTab c || c == 59) t
    if luaWord ['p', 'r', 'i', 'n', 't'] t then
      match skipTabs (t.drop 5) with
      | 40 :: rest => .ok (.other .sPrint (payloadText t rest (dropParen t rest e)))
      | _ => .error (.status .errSyntax)
    else if luaWord ['w', 'h', 'i', 'l', 'e'] t then
      .ok (luaCond .sWhile ['d', 'o'] t (t.drop 5) e)
    else if luaWord ['i', 'f'] t then .ok (luaCond .sIf ['t', 'h', 'e', 'n'] t (t.drop 2) e)
    else if luaWord ['e', 'l', 's', 'e'] t then .ok .elseLine
    else
      match skipTabs (t.dropWhile isNameChar) with
      | 61 :: rest => .ok (.assign (luaTarget stale t) (payloadText t (skipTabs rest) e))
      | _ => .error (.status .errSyntax)

/-- The characters of the target that are written beyond `name[16]`. -/
def luaOverrun (text : List UInt8) : Found → Bool
  | .assign _ _ => ((skipTabs text).takeWhile isNameChar).length > 16
  | _ => false

/-- The loop body of `lua_collect`.  The target is written once the value is tokenized. -/
def luaLine (stale : Nat → List UInt8) : LineFn := fun line n P =>
  let buf := lineBuf line
  let text := stripComment (fun s => s.head? == some 45 && s.tail.head? == some 45) false
    (skipTabs buf)
  match luaFound (stale n) text with
  | .error e => .error e
  | .ok found =>
    match finishLine n (buf.length - (skipTabs buf).length) P found with
    | .error e => .error e
    | .ok r => if luaOverrun text found then .error .overrun else .ok r

/-- `lua_collect`.  `stale n` is what the name of the target held before the statement `n` is
built. -/
def luaCollect (stale : Nat → List UInt8) (manifest : List UInt8) :
    Except CollectStop (List Stmt × StringPool) :=
  collectLines (luaLine stale) (manifestLines manifest.length manifest) [] .empty

end Engines
