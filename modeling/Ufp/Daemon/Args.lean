/-
# Ufp.Daemon.Args — the options of the daemon

`ufpd_parse_args` and what it is made of: `getopt` of the C library as it is
documented, `ufpd_parse_range`, `ufpd_parse_list` and `ufpd_convert_list`. A string is
the list of its characters before the terminator, and an `int` or an `unsigned int` is
an integer; where the code converts one to the other, so does the model. An array whose
entries may not have been written holds `none` there.
-/
import Ufp.Theory.CLibrary
import Mathlib.Logic.Function.Basic

namespace Ufp.Daemon

open Ufp.Theory.CLibrary Ufp.Theory.Decimal

set_option autoImplicit false

/-- `UFPD_MAX_CORES`. -/
def ufpdMaxCores : Nat := 16

/-- `UFPD_MAX_ARGS`. -/
def ufpdMaxArgs : Nat := 128

/-- `UFPD_MAX_ARGLEN`. -/
def ufpdMaxArglen : Nat := 1024

/-- `UFPD_MAX_IFS`. -/
def ufpdMaxIfs : Nat := 64

/-- Why a call does not return 0: it returns -1, or it runs into what C leaves
undefined. -/
inductive Stop where
  | failed
  | undefined
  deriving DecidableEq

/-! ## `getopt` -/

/-- What `getopt` returns in turn: an option without an argument, one with its
argument, or `'?'`. -/
inductive Opt where
  | flag (c : Char)
  | arg (c : Char) (optarg : List Char)
  | bad
  deriving DecidableEq

/-- The options of `"c:p:n:m:b:ah"`, and whether they take an argument. -/
def takesArg (c : Char) : Option Bool :=
  if c ∈ ['c', 'p', 'n', 'm', 'b'] then some true
  else if c ∈ ['a', 'h'] then some false
  else none

/-- The calls of `getopt` until it returns -1: `cluster` is what is left of the
word it is in, and `argv` the words after it. It goes on past a word that is not an
option, unless `POSIXLY_CORRECT` is set. -/
def getopt (posixlyCorrect : Bool) : (cluster : List Char) → (argv : List (List Char)) → List Opt
  | [], [] => []
  | [], ['-', '-'] :: _ => []
  | [], ('-' :: c :: cs) :: argv => getopt posixlyCorrect (c :: cs) argv
  | [], _ :: argv => if posixlyCorrect then [] else getopt posixlyCorrect [] argv
  | c :: cs, argv =>
      match takesArg c with
      | none => .bad :: getopt posixlyCorrect cs argv
      | some false => .flag c :: getopt posixlyCorrect cs argv
      | some true =>
          if cs ≠ [] then .arg c cs :: getopt posixlyCorrect [] argv
          else
            match argv with
            | [] => [.bad]
            | optarg :: argv => .arg c optarg :: getopt posixlyCorrect [] argv
termination_by cluster argv => (argv.length, cluster.length)

/-! ## Lists of cores and devices -/

/-- The loop of `ufpd_parse_range` over the numbers of a range. The comparison takes
`num` as an `unsigned int`. -/
def rangeLoop (maxLen : Nat) (hi num : Int) (result : List Char) : Except Stop (List Char) :=
  if asUnsigned num ≤ hi then
    let (err, result) := snprintfAt maxLen result ((if result.length ≠ 0 then [','] else []) ++ decimal num)
    if err < 0 then .error .failed
    -- the increment of an `int`
    else if num + 1 < 2 ^ 31 then rangeLoop maxLen hi (num + 1) result
    else .error .undefined
  else .ok result
termination_by (2 ^ 31 - num).toNat

/-- The end of an item. `low` is `range[0]` if the item is `ranged`. -/
def closeItem (maxLen : Nat) (buf : List Char) (low : Option Int) (result : List Char) :
    Except Stop (List Char) :=
  match scanfU buf with
  | none => .error .failed
  | some hi => rangeLoop maxLen hi (asInt (low.getD hi)) result

/-- The loop of `ufpd_parse_range` over the characters of `str`. -/
def parseRangeLoop (maxLen : Nat) : (str buf : List Char) → (low : Option Int) → (result : List Char) →
    Except Stop (List Char)
  | [], buf, low, result => closeItem maxLen buf low result
  | c :: str, buf, low, result =>
      if c = ',' then do
        parseRangeLoop maxLen str [] none (← closeItem maxLen buf low result)
      else if c = '-' then
        match scanfU buf with
        | none => .error .failed
        | some num => parseRangeLoop maxLen str [] (some num) result
      else if buf.length = ufpdMaxArglen - 1 then .error .failed
      else parseRangeLoop maxLen str (buf ++ [c]) low result

def parseRange (str : List Char) (maxLen : Nat) : Except Stop (List Char) :=
  parseRangeLoop maxLen str [] none []

/-- The end of a field: the `int` to return if there is no room for it, and else the
strings with it. -/
def closeField (maxLen maxCount : Nat) (buf : List Char) (count : Nat) (result : Nat → Option (List Char)) :
    Option (Nat → Option (List Char)) :=
  if maxCount ≤ count then none else some (Function.update result count (some (buf.take maxLen)))

/-- The loop of `ufpd_parse_list`: what it returns, and the strings it wrote. -/
def parseListLoop (maxLen maxCount : Nat) : (str buf : List Char) → (count : Nat) →
    (result : Nat → Option (List Char)) → Int × (Nat → Option (List Char))
  | [], buf, count, result =>
      match closeField maxLen maxCount buf count result with
      | none => (-1, result)
      | some result => (count + 1, result)
  | c :: str, buf, count, result =>
      if c = ',' then
        match closeField maxLen maxCount buf count result with
        | none => (-1, result)
        | some result => parseListLoop maxLen maxCount str [] (count + 1) result
      else if buf.length = ufpdMaxArglen - 1 then (-1, result)
      else parseListLoop maxLen maxCount str (buf ++ [c]) count result

def parseList (str : List Char) (result : Nat → Option (List Char)) (maxLen maxCount : Nat) :
    Int × (Nat → Option (List Char)) :=
  parseListLoop maxLen maxCount str [] 0 result

/-- The loop of `ufpd_convert_list` from `i` on, with `"%u"`; `todo` is how far
`max_count` is. -/
def convertLoop (str : Nat → Option (List Char)) (strCount : Int) : (todo i : Nat) →
    (result : Nat → Option Int) → Except Stop (Nat → Option Int)
  | 0, _, result => .ok result
  | todo + 1, i, result =>
      if (i : Int) < strCount then
        match str i with
        | none => .error .undefined
        | some s =>
            match scanfU s with
            | none => .error .failed
            | some num => convertLoop str strCount todo (i + 1) (Function.update result i (some num))
      else .ok result

def convertList (str : Nat → Option (List Char)) (strCount : Int) (result : Nat → Option Int)
    (maxCount : Nat) : Except Stop (Nat → Option Int) :=
  convertLoop str strCount maxCount 0 result

/-! ## The options -/

/-- The fields of `struct ufpd` that options set. -/
structure Ufpd where
  numThreads : Int
  cores : Nat → Option Int
  numDevices : Int
  ifnames : Nat → Option (List Char)
  promisc : Int
  mtuFrame : Int
  bufCount : Int
  numaNode : Int

/-- What `main` sets before it parses the options. -/
def ufpdDefaults : Ufpd where
  numThreads := 0
  cores := fun _ => none
  numDevices := 0
  ifnames := fun _ => none
  promisc := 0
  mtuFrame := 1518
  bufCount := 8192
  numaNode := 0

/-- Option `-c`. `argbuf` keeps what an earlier one left in it. -/
def coresOption (optarg : List Char) (ufpd : Ufpd) (argbuf : Nat → Option (List Char)) :
    Except Stop (Ufpd × (Nat → Option (List Char))) := do
  let strbuf ← parseRange optarg ufpdMaxArglen
  let (count, argbuf) := parseList strbuf argbuf ufpdMaxArglen ufpdMaxArgs
  let numThreads := asUnsigned count
  if numThreads < 0 then .error .failed
  else
    let cores ← convertList argbuf (asInt numThreads) ufpd.cores ufpdMaxCores
    .ok ({ ufpd with numThreads, cores }, argbuf)

/-- Option `-p`. -/
def devicesOption (optarg : List Char) (ufpd : Ufpd) : Except Stop Ufpd :=
  let (count, ifnames) := parseList optarg ufpd.ifnames ufpdMaxArglen ufpdMaxIfs
  let numDevices := asUnsigned count
  if numDevices < 0 then .error .failed else .ok { ufpd with numDevices, ifnames }

/-- The option that is a number. -/
def numberOption (optarg : List Char) (set : Int → Ufpd) : Except Stop Ufpd :=
  match scanfU optarg with
  | none => .error .failed
  | some num => .ok (set num)

/-- One turn of the loop over the options. -/
def parseOpt (ufpd : Ufpd) (argbuf : Nat → Option (List Char)) : Opt →
    Except Stop (Ufpd × (Nat → Option (List Char)))
  | .arg 'c' optarg => coresOption optarg ufpd argbuf
  | .arg 'p' optarg => (devicesOption optarg ufpd).map (·, argbuf)
  | .arg 'n' optarg => (numberOption optarg fun numaNode => { ufpd with numaNode }).map (·, argbuf)
  | .arg 'm' optarg => (numberOption optarg fun mtuFrame => { ufpd with mtuFrame }).map (·, argbuf)
  | .arg 'b' optarg => (numberOption optarg fun bufCount => { ufpd with bufCount }).map (·, argbuf)
  | .flag 'a' => .ok ({ ufpd with promisc := 1 }, argbuf)
  | _ => .error .failed

def parseOpts (ufpd : Ufpd) (argbuf : Nat → Option (List Char)) : List Opt → Except Stop Ufpd
  | [] => .ok ufpd
  | opt :: opts => do
      let (ufpd, argbuf) ← parseOpt ufpd argbuf opt
      parseOpts ufpd argbuf opts

/-- `ufpd_parse_args`. `granted i` says whether the `malloc` of `argbuf[i]` succeeds;
the blocks come unwritten. -/
def parseArgs (granted : Nat → Bool) (posixlyCorrect : Bool) (ufpd : Ufpd) (argv : List (List Char)) :
    Except Stop Ufpd := do
  if (List.range ufpdMaxArgs).all granted then
    let ufpd ← parseOpts ufpd (fun _ => none) (getopt posixlyCorrect [] argv.tail)
    if ufpd.numDevices = 0 then .error .failed
    else if ufpd.numThreads = 0 then .error .failed
    else .ok ufpd
  else .error .failed

end Ufp.Daemon
