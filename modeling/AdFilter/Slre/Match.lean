import Mathlib.Logic.Function.Basic
import Mathlib.Tactic.Common

/-!
# The regular expression matcher `slre`

A transcription of `slre_match`. The pattern and the subject are byte strings;
reading at or after their end gives the terminating NUL. Text pointers are
offsets into them, and a length is the `int` of the source. Entries of the
bracket table that the scan does not set hold whatever the stack held.
-/

namespace AdFilter.Slre.Match

def noMatch : Int := -1
def unexpectedQuantifier : Int := -2
def unbalancedBrackets : Int := -3
def internalError : Int := -4
def invalidCharacterSet : Int := -5
def invalidMetacharacter : Int := -6
def tooManyBranches : Int := -8
def tooManyBrackets : Int := -9

def maxBranches : Nat := 100
def maxBrackets : Nat := 100

/-- The flag of `slre_match` for comparisons without regard to case. -/
def slreIgnoreCase : Nat := 1

def byteAt (s : List UInt8) (i : Nat) : UInt8 := s.getD i 0

def byte (c : Char) : UInt8 := c.toUInt8

def isDigit (b : UInt8) : Bool := decide (48 ≤ b ∧ b ≤ 57)
def isUpper (b : UInt8) : Bool := decide (65 ≤ b ∧ b ≤ 90)
def isSpace (b : UInt8) : Bool := decide (b = 32 ∨ (9 ≤ b ∧ b ≤ 13))
def isXDigit (b : UInt8) : Bool := isDigit b || decide ((65 ≤ b ∧ b ≤ 70) ∨ (97 ≤ b ∧ b ≤ 102))
def toLower (b : UInt8) : UInt8 := if isUpper b then b + 32 else b

/-- The value of a byte read through a plain `char`. -/
def charVal (b : UInt8) : Int := if b < 128 then b.toNat else (b.toNat : Int) - 256

structure BracketPair where
  ptr : Nat
  len : Int
  branches : Nat
  numBranches : Nat

structure Branch where
  bracketIndex : Nat
  schlong : Nat

structure RegexInfo where
  brackets : Nat → BracketPair
  numBrackets : Nat
  branches : List Branch
  flags : Nat

def metacharacters : List UInt8 := "^$().[]*+?|\\Ssdbfnrtv".toList.map byte

/-- `strchr` also finds the NUL that ends the table. -/
def isMetacharacter (b : UInt8) : Bool := b == 0 || metacharacters.contains b

section Scanning

variable (re : List UInt8)

def opLen (r : Nat) : Nat :=
  if byteAt re r = byte '\\' ∧ byteAt re (r + 1) = byte 'x' then 4
  else if byteAt re r = byte '\\' then 2
  else 1

theorem opLen_pos (r : Nat) : 0 < opLen re r := by
  unfold opLen
  split
  · omega
  · split <;> omega

/-- Where the loop of `set_len` stops. -/
def setEnd (r : Nat) (reLen : Int) (len : Nat) : Nat :=
  if (len : Int) < reLen ∧ byteAt re (r + len) ≠ byte ']' then
    setEnd r reLen (len + opLen re (r + len))
  else len
termination_by (reLen - len).toNat
decreasing_by
  have hp := opLen_pos re (r + len)
  omega

def setLen (r : Nat) (reLen : Int) : Int :=
  let len := setEnd re r reLen 0
  if (len : Int) ≤ reLen then len + 1 else -1

def getOpLen (r : Nat) (reLen : Int) : Int :=
  if byteAt re r = byte '[' then setLen re (r + 1) (reLen - 1) + 1 else opLen re r

def isQuantifier (r : Nat) : Bool :=
  byteAt re r == byte '*' || byteAt re r == byte '+' || byteAt re r == byte '?'

end Scanning

def toi (b : UInt8) : Int := if isDigit b then (b.toNat : Int) - 48 else (b.toNat : Int) - 87

def hextoi (a b : UInt8) : Int :=
  (BitVec.ofInt 32 (toi (toLower a)) <<< 4 ||| BitVec.ofInt 32 (toi (toLower b))).toInt

def RegexInfo.ignoreCase (info : RegexInfo) : Bool := info.flags &&& slreIgnoreCase != 0

section Matching

variable (re s : List UInt8) (info : RegexInfo)

/-- The escapes of `match_op` after a backslash. -/
def matchEscape (r p : Nat) : Int :=
  let e := byteAt re (r + 1)
  let c := byteAt s p
  let ok : Bool :=
    if e = byte 'S' then !isSpace c
    else if e = byte 's' then isSpace c
    else if e = byte 'd' then isDigit c
    else if e = byte 'b' then c == 8
    else if e = byte 'f' then c == 12
    else if e = byte 'n' then c == 10
    else if e = byte 'r' then c == 13
    else if e = byte 't' then c == 9
    else if e = byte 'v' then c == 11
    else if e = byte 'x' then
      hextoi (byteAt re (r + 2)) (byteAt re (r + 3)) == (c.toNat : Int)
    else e == c
  if ok then 1 else noMatch

def matchOp (r p : Nat) : Int :=
  let b := byteAt re r
  let c := byteAt s p
  if b = byte '\\' then matchEscape re s r p
  else if b = byte '|' then internalError
  else if b = byte '$' then noMatch
  else if b = byte '.' then 1
  else if info.ignoreCase then if toLower b = toLower c then 1 else noMatch
  else if b = c then 1 else noMatch

/-- The members of a set, one after the other until one holds the character. -/
def matchSetFrom (r : Nat) (reLen : Int) (p : Nat) (len : Nat) (result : Int) : Int :=
  if (len : Int) ≤ reLen ∧ byteAt re (r + len) ≠ byte ']' ∧ result ≤ 0 then
    let lo := byteAt re (r + len)
    let hi := byteAt re (r + len + 2)
    if lo ≠ byte '-' ∧ byteAt re (r + len + 1) = byte '-' ∧ hi ≠ byte ']' ∧ hi ≠ 0 then
      let c := byteAt s p
      let inRange :=
        if info.ignoreCase then
          decide (charVal (toLower lo) ≤ charVal (toLower c) ∧
            charVal (toLower c) ≤ charVal (toLower hi))
        else decide (charVal lo ≤ charVal c ∧ charVal c ≤ charVal hi)
      matchSetFrom r reLen p (len + 3) (if inRange then 1 else 0)
    else
      matchSetFrom r reLen p (len + opLen re (r + len)) (matchOp re s info (r + len) p)
  else result
termination_by (reLen + 1 - len).toNat
decreasing_by
  · omega
  · have hp := opLen_pos re (r + len)
    omega

def matchSet (r : Nat) (reLen : Int) (p : Nat) : Int :=
  let invert := byteAt re r = byte '^'
  let result :=
    if invert then matchSetFrom re s info (r + 1) (reLen - 1) p 0 (-1)
    else matchSetFrom re s info r reLen p 0 (-1)
  if (¬invert ∧ 0 < result) ∨ (invert ∧ result ≤ 0) then 1 else -1

/-- The length of the chunk of the pattern at offset `i`. -/
def chunkLen (r : Nat) (reLen : Int) (bi i : Nat) : Int :=
  if byteAt re (r + i) = byte '(' then (info.brackets (bi + 1)).len + 2
  else getOpLen re (r + i) (reLen - i)

/-- Whether the quantifier at offset `q` has a `?` after it. -/
def isNonGreedy (r : Nat) (reLen : Int) (q : Nat) : Bool :=
  decide ((q : Int) + 1 < reLen) && byteAt re (r + q + 1) == byte '?'

/-- The offset of the pattern after the quantifier at offset `q`. -/
def restAt (r : Nat) (reLen : Int) (q : Nat) : Nat :=
  if isNonGreedy re r reLen q then q + 2 else q + 1

theorem restAt_gt (r : Nat) (reLen : Int) (q : Nat) : q < restAt re r reLen q := by
  unfold restAt
  split <;> omega

def Branch.start (b : Option Branch) : Nat := b.elim 0 Branch.schlong

/-- Where the text of branch `i` of a bracket pair starts, and its length. -/
def branchText (b : BracketPair) (i : Nat) : Nat × Int :=
  let start := if i = 0 then b.ptr else Branch.start info.branches[b.branches + i - 1]? + 1
  (start,
    if b.numBranches = 0 then b.len
    else if i = b.numBranches then (b.ptr : Int) + b.len - start
    else (Branch.start info.branches[b.branches + i]? : Int) - start)

mutual

/-- The loop of `bar` from offset `i` of the pattern and `j` of the subject. -/
def bar (r : Nat) (reLen : Int) (p : Nat) (sLen : Int) (bi i j : Nat) : Int :=
  if (i : Int) < reLen ∧ (j : Int) ≤ sLen then
    let b := byteAt re (r + i)
    let step := chunkLen re info r reLen bi i
    if isQuantifier re (r + i) then unexpectedQuantifier
    else if step ≤ 0 then invalidCharacterSet
    else
      let q := i + step.toNat
      if (q : Int) < reLen ∧ isQuantifier re (r + q) then
        if byteAt re (r + q) = byte '?' then
          let result := bar (r + i) step (p + j) (sLen - j) bi 0 0
          bar r reLen p sLen bi (q + 1) (j + result.toNat)
        else
          starChunk (r + i) step (r + restAt re r reLen q) (reLen - restAt re r reLen q)
            (byteAt re (r + q) == byte '+') (isNonGreedy re r reLen q) p sLen bi j
      else if b = byte '[' then
        let n := matchSet re s info (r + i + 1) (reLen - (i + 2)) (p + j)
        if n ≤ 0 then noMatch else bar r reLen p sLen bi q (j + n.toNat)
      else if b = byte '(' then
        if info.numBrackets ≤ bi + 1 then internalError
        else
          let n :=
            if reLen - q ≤ 0 then doh (p + j) (sLen - j) (bi + 1) 0
            else capLoop (r + q) (reLen - q) (p + j) (sLen - j) (bi + 1) 0 noMatch
          if n < 0 then n else bar r reLen p sLen (bi + 1) q (j + n.toNat)
      else if b = byte '^' then
        if j ≠ 0 then noMatch else bar r reLen p sLen bi q j
      else if b = byte '$' then
        if (j : Int) ≠ sLen then noMatch else bar r reLen p sLen bi q j
      else if sLen ≤ j then noMatch
      else
        let n := matchOp re s info (r + i) (p + j)
        if n ≤ 0 then n else bar r reLen p sLen bi q (j + n.toNat)
  else j
termination_by (2 * (info.numBrackets - bi), 3 * reLen.toNat, (reLen - i).toNat)
decreasing_by
  all_goals
    have hq := restAt_gt re r reLen (i + (chunkLen re info r reLen bi i).toNat)
    first
      | (apply Prod.Lex.right; apply Prod.Lex.left; omega)
      | (apply Prod.Lex.right; apply Prod.Lex.right; omega)
      | (apply Prod.Lex.left; omega)

/-- A chunk at `c` under the quantifier `*` or `+`, with the pattern after the
quantifier at `r`. The chunk and that pattern are matched here together. -/
def starChunk (c : Nat) (step : Int) (r : Nat) (reLen : Int) (plus nonGreedy : Bool) (p : Nat)
    (sLen : Int) (bi j : Nat) : Int :=
  let (nj, n1, n2) := starLoop c step r reLen plus nonGreedy p sLen bi j j j (-1)
  let retry := n1 < 0 ∧ n2 < 0 ∧ plus = false
  let n2' := if retry then bar r reLen (p + j) (sLen - j) bi 0 0 else n2
  let nj' := if retry ∧ 0 < n2' then j + n2'.toNat else nj
  if plus ∧ nj' = j then noMatch
  else if nj' = j ∧ 0 < reLen ∧ n2' < 0 then noMatch
  else nj'
termination_by
  (2 * (info.numBrackets - bi), 3 * max step.toNat reLen.toNat + 2, 0)

/-- The loop of the quantifiers `*` and `+`. The result is `nj`, `n1` and `n2`. -/
def starLoop (c : Nat) (step : Int) (r : Nat) (reLen : Int) (plus nonGreedy : Bool) (p : Nat)
    (sLen : Int) (bi j j2 nj : Nat) (n2 : Int) : Nat × Int × Int :=
  let n1 := bar c step (p + j2) (sLen - j2) bi 0 0
  let j2' := j2 + n1.toNat
  if plus ∧ n1 < 0 then (nj, n1, n2)
  else
    let rest := if reLen ≤ 0 then n2 else bar r reLen (p + j2') (sLen - j2') bi 0 0
    let nj' := if reLen ≤ 0 then j2' else if 0 ≤ rest then j2' + rest.toNat else nj
    if j < nj' ∧ nonGreedy then (nj', n1, rest)
    -- Nothing is matched past the end of the subject, so the second test always
    -- holds where the first does.
    else if 0 < n1 ∧ (j2 : Int) ≤ sLen then
      starLoop c step r reLen plus nonGreedy p sLen bi j j2' nj' rest
    else (nj', n1, rest)
termination_by
  (2 * (info.numBrackets - bi), 3 * max step.toNat reLen.toNat + 1, (sLen + 1 - j2).toNat)

/-- The loop of `bar` that hands a capture ever shorter pieces of the subject. -/
def capLoop (r : Nat) (reLen : Int) (p : Nat) (sLen : Int) (bi j2 : Nat) (n : Int) : Int :=
  if (j2 : Int) ≤ sLen then
    let n' := doh p (sLen - j2) bi 0
    if 0 ≤ n' ∧ 0 ≤ bar r reLen (p + n'.toNat) (sLen - n') bi 0 0 then n'
    else capLoop r reLen p sLen bi (j2 + 1) n'
  else n
termination_by (2 * (info.numBrackets - bi) + 1, 1, (sLen + 1 - j2).toNat)

/-- The branches of one bracket pair, from the `i`-th on. -/
def doh (p : Nat) (sLen : Int) (bi i : Nat) : Int :=
  let (start, len) := branchText info (info.brackets bi) i
  let result := bar start len p sLen bi 0 0
  if result ≤ 0 ∧ i < (info.brackets bi).numBranches then doh p sLen bi (i + 1) else result
termination_by (2 * (info.numBrackets - bi) + 1, 0, (info.brackets bi).numBranches - i)

end

/-- Try the whole pattern at every offset of the subject. -/
def bazFrom (sLen : Nat) : Nat → Nat → Int
  | 0, _ => noMatch
  | n + 1, i =>
      let result := doh re s info i ((sLen : Int) - i) 0 0
      if 0 ≤ result then result + i
      else if byteAt re (info.brackets 0).ptr = byte '^' then result
      else if n = 0 then result
      else bazFrom sLen n (i + 1)

def baz (sLen : Nat) : Int := bazFrom re s info sLen (sLen + 1) 0

end Matching

section Compiling

def swapBranches (bs : List Branch) (i j : Nat) : List Branch :=
  match bs[i]?, bs[j]? with
  | some a, some b => if b.bracketIndex < a.bracketIndex then (bs.set i b).set j a else bs
  | _, _ => bs

def sortBranches (bs : List Branch) : List Branch :=
  (List.range bs.length).foldl (fun bs i =>
    (List.range' (i + 1) (bs.length - (i + 1))).foldl (fun bs j => swapBranches bs i j) bs) bs

def RegexInfo.setBracket (info : RegexInfo) (k : Nat) (b : BracketPair) : RegexInfo :=
  { info with brackets := Function.update info.brackets k b }

/-- Give the brackets from the `i`-th on their branches, which are sorted. -/
def setBranchPoints (info : RegexInfo) : List Nat → Nat → RegexInfo
  | [], _ => info
  | i :: is, j =>
      let n := ((info.branches.drop j).takeWhile fun b => b.bracketIndex == i).length
      setBranchPoints
        (info.setBracket i { info.brackets i with numBranches := n, branches := j }) is (j + n)

def setupBranchPoints (info : RegexInfo) : RegexInfo :=
  setBranchPoints { info with branches := sortBranches info.branches }
    (List.range info.numBrackets) 0

theorem setBranchPoints_flags (is : List Nat) (info : RegexInfo) (j : Nat) :
    (setBranchPoints info is j).flags = info.flags := by
  induction is generalizing info j with
  | nil => rfl
  | cons i is ih =>
    rw [setBranchPoints, ih]
    rfl

/-- What the pass of `foo` does at offset `i`: the table and the depth after it. -/
def scanChunk (re : List UInt8) (info : RegexInfo) (depth i : Nat) :
    Except Int (RegexInfo × Nat) :=
  let b := byteAt re i
  let last := info.numBrackets - 1
  let ind := if (info.brackets last).len = -1 then last else depth
  if b = byte '|' then
    if maxBranches ≤ info.branches.length then .error tooManyBranches
    else .ok ({ info with branches := info.branches ++ [⟨ind, i⟩] }, depth)
  else if b = byte '\\' then
    if re.length ≤ i + 1 then .error invalidMetacharacter
    else if byteAt re (i + 1) = byte 'x' then
      if re.length ≤ i + 3 then .error invalidMetacharacter
      else if isXDigit (byteAt re (i + 2)) && isXDigit (byteAt re (i + 3)) then .ok (info, depth)
      else .error invalidMetacharacter
    else if isMetacharacter (byteAt re (i + 1)) then .ok (info, depth)
    else .error invalidMetacharacter
  else if b = byte '(' then
    if maxBrackets ≤ info.numBrackets then .error tooManyBrackets
    else
      let k := info.numBrackets
      let info' := info.setBracket k { info.brackets k with ptr := i + 1, len := -1 }
      .ok ({ info' with numBrackets := k + 1 }, depth + 1)
  else if b = byte ')' then
    let pair := info.brackets ind
    let info' := info.setBracket ind { pair with len := (i : Int) - pair.ptr }
    if depth = 0 then .error unbalancedBrackets
    else if 0 < i ∧ byteAt re (i - 1) = byte '(' then .error noMatch
    else .ok (info', depth - 1)
  else .ok (info, depth)

/-- The pass of `foo` over the pattern. A step of zero repeats the same chunk for
ever, which is the outcome `none`. -/
def scan (re : List UInt8) (info : RegexInfo) (depth i : Nat) :
    Option (Except Int (RegexInfo × Nat)) :=
  if i < re.length then
    let step := getOpLen re i (re.length - i)
    match scanChunk re info depth i with
    | .error e => some (.error e)
    | .ok (info', depth') => if step ≤ 0 then none else scan re info' depth' (i + step.toNat)
  else some (.ok (info, depth))
termination_by re.length - i

def foo (re s : List UInt8) (info : RegexInfo) : Option Int :=
  let whole := info.setBracket 0 { info.brackets 0 with ptr := 0, len := re.length }
  match scan re { whole with numBrackets := 1 } 0 0 with
  | none => none
  | some (.error e) => some e
  | some (.ok (info', depth)) =>
      if depth ≠ 0 then some unbalancedBrackets
      else some (baz re s (setupBranchPoints info') s.length)

/-- `slre_match` without captures. The bracket table starts as `stack`. -/
def slreMatch (stack : Nat → BracketPair) (regexp s : List UInt8) (flags : Nat) : Option Int :=
  foo regexp s { brackets := stack, numBrackets := 0, branches := [], flags := flags }

end Compiling

end AdFilter.Slre.Match
