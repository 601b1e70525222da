import SmallCpp.Heap.Convert
import SmallCpp.Sort.RunMerge
import SmallCpp.Text.Slice

/-!
# Library functions

The functions that a program can call once it includes their header, and the member functions of
texts.
-/

namespace SmallCpp

inductive LibraryFunction where
  | sort
  | reverse
  | max
  | min
  | makePair
  | toString
  | stoi
  | stod
  | abs
  | sqrt
  | pow
  | floor
  | ceil
deriving DecidableEq, Repr, Inhabited

namespace LibraryFunction

def name : LibraryFunction → String
  | sort => "sort"
  | reverse => "reverse"
  | max => "max"
  | min => "min"
  | makePair => "make_pair"
  | toString => "to_string"
  | stoi => "stoi"
  | stod => "stod"
  | abs => "abs"
  | sqrt => "sqrt"
  | pow => "pow"
  | floor => "floor"
  | ceil => "ceil"

def all : List LibraryFunction :=
  [sort, reverse, max, min, makePair, toString, stoi, stod, abs, sqrt, pow, floor, ceil]

def ofName? (s : String) : Option LibraryFunction :=
  all.find? fun f => f.name == s

end LibraryFunction

/-- The functions that a header makes visible; an unknown header has none. -/
def headerFunctions (header : String) : List LibraryFunction :=
  match header with
  | "map" | "utility" => [.makePair]
  | "algorithm" => [.sort, .reverse, .max, .min]
  | "string" => [.toString, .stoi, .stod]
  | "cmath" | "math.h" => [.abs, .sqrt, .pow, .floor, .ceil]
  | "cstdlib" => [.abs]
  | "bits/stdc++.h" => LibraryFunction.all
  | _ => []

/-! ### Order -/

/-- What values are ordered by: texts by their characters, scalars by their number. -/
inductive OrderKey where
  | text (s : CodeText)
  | number (n : Number)
deriving BEq, Repr, Inhabited

def orderKey (v : Value) : HeapM OrderKey :=
  match v with
  | .text s => pure (.text s)
  | v => do return .number (← orFail v.number)

/-- The first key comes strictly before the second, `none` if they are of different kinds. -/
def OrderKey.before? : OrderKey → OrderKey → Option Bool
  | text s, text t => some (s < t)
  | number m, number n => some (m.compare? n == some .lt)
  | _, _ => none

def OrderKey.before (a b : OrderKey) : HeapM Bool :=
  match a.before? b with
  | some r => pure r
  | none => failOperands "texts and numbers have no common order"

def mixedKeys (keys : List OrderKey) : Bool :=
  let isTextKey : OrderKey → Bool
    | .text _ => true
    | .number _ => false
  keys.any isTextKey && keys.any fun k => !isTextKey k

/-- A key that has no place in the order: a non-number. -/
def OrderKey.isUnordered : OrderKey → Bool
  | number (.real x) => x.isNaN
  | _ => false

/-- The values in the order of their keys; values of equal keys keep their order. Among non-numbers
the order depends on the pairs that are compared, so there the sort that compares them is named. -/
def sortByKey (keyed : List (OrderKey × Value)) : List Value :=
  let before (a b : OrderKey × Value) : Bool := a.1.before? b.1 == some true
  let sorted :=
    if keyed.any fun k => k.1.isUnordered then Sort.sortBy before keyed
    else keyed.mergeSort fun a b => !before b a
  sorted.map Prod.snd

/-- The vector and the two ends of a range: two positions of one vector, or a whole vector. -/
def rangeOf (name : String) (first last : Value) : HeapM (Nat × Int × Int) :=
  match first, last with
  | .vector loc, .null => do return (loc, 0, (← getVector loc).2.size)
  | .iterator v i, .iterator w j =>
    if v == w then pure (v, i, j) else fail .differentContainers
  | _, _ => fail (.needsIterators name)

def sortRange (first last : Value) : HeapM Value := do
  let (loc, start, stop) ← rangeOf "sort" first last
  let items := (← getVector loc).2.toList
  let part := slice start stop items
  let keyed ← part.mapM fun v => do return (← orderKey v, v)
  if mixedKeys (keyed.map Prod.fst) then
    failOperands "texts and numbers have no common order"
  updateVector loc fun _ => (replaceSlice start stop (sortByKey keyed) items).toArray
  return .null

def reverseRange (first last : Value) : HeapM Value := do
  let (loc, start, stop) ← rangeOf "reverse" first last
  let items := (← getVector loc).2.toList
  let part := slice start stop items
  updateVector loc fun _ => (replaceSlice start stop part.reverse items).toArray
  return .null

/-! ### Numbers -/

/-- What a text denotes by a way of reading, with the error of a function. -/
def readArgument {α : Type} (name : String) (read : String → Option α) (v : Value) : HeapM α := do
  let s ← plainText v
  match s.chars?.bind fun cs => read (Text.strip (String.ofList cs)) with
  | some a => return a
  | none => fail (.invalidArgument name (← shown v))

/-- The square root of a number, the common non-number below zero. -/
def squareRoot (n : Number) : HeapM Value :=
  match n.compare? (.int 0) with
  | some .gt | some .eq => do return .real (← orFault n.toDouble).sqrt
  | _ => pure (.real notANumber)

/-- A power of doubles; where it is undefined or too large for finite operands, the common
non-number. -/
def realPower (x y : Float) : HeapM Value :=
  let r := x.pow y
  if x.isFinite && y.isFinite && !r.isFinite then pure (.real notANumber) else newReal r

/-- A power of numbers; an integer beyond the doubles gives the common non-number. -/
def power (a b : Number) : HeapM Value :=
  match a.toDouble, b.toDouble with
  | .ok x, .ok y => realPower x y
  | _, _ => pure (.real notANumber)

def roundWith (round : Float → Except IntegerPartError Int) (n : Number) : HeapM Value := do
  let k ←
    match n with
    | .int k => pure k
    | .real x =>
      match round x with
      | .ok k => pure k
      | .error .infinite => failFault .infinityToInteger
      | .error .nan => failFault .nanToInteger
  return .real (← orFault (Number.int k).toDouble)

def absolute : Number → HeapM Value
  | .int n => pure (.int n.natAbs)
  | .real x => newReal x.abs

/-- The decimal text of a number: six places for a double. -/
def decimalText (n : Number) : HeapM Value :=
  match n with
  | .int n => do return .ofString (← integerText n)
  | .real x => pure (.ofString (fixedText x))

def callLibrary (f : LibraryFunction) (args : List Value) : HeapM Value :=
  match f, args with
  | .sort, [v] => sortRange v .null
  | .sort, [first, last] => sortRange first last
  | .reverse, [v] => reverseRange v .null
  | .reverse, [first, last] => reverseRange first last
  | .max, [a, b] => do
    let k ← orderKey a
    let l ← orderKey b
    return if ← k.before l then b else a
  | .min, [a, b] => do
    let l ← orderKey b
    let k ← orderKey a
    return if ← l.before k then b else a
  | .makePair, [a, b] => do
    let first ← copyValue a
    let second ← copyValue b
    newPair first second none none
  | .toString, [v] => do decimalText (← orFail v.number)
  | .stoi, [v] => do return .int (← readArgument "stoi" (fun s => (readInteger s).toOption) v)
  | .stod, [v] => do newReal (← readArgument "stod" readDouble? v)
  | .abs, [v] => do absolute (← orFail v.number)
  | .sqrt, [v] => do squareRoot (← orFail v.number)
  | .pow, [a, b] => do
    let m ← orFail a.number
    let n ← orFail b.number
    power m n
  | .floor, [v] => do roundWith floorDouble (← orFail v.number)
  | .ceil, [v] => do roundWith ceilDouble (← orFail v.number)
  | _, _ => failOperands "wrong number of arguments"

/-! ### Texts -/

/-- The offset of the first occurrence of a text in another. -/
def findText? (needle : CodeText) : CodeText → Option Nat
  | [] => if needle.isEmpty then some 0 else none
  | c :: cs =>
    if needle.isPrefixOf (c :: cs) then some 0 else (findText? needle cs).map (· + 1)

/-- The argument at a position of a call that must have it. -/
def argument (args : List Value) (i : Nat) : HeapM Value :=
  match args[i]? with
  | some v => pure v
  | none => failFault .missingArgument

/-- The character at an index of a text, checked for the given operation. -/
def charAt (operation : String) (s : CodeText) (i : Int) : HeapM CodePoint :=
  match if i < 0 then none else s[i.toNat]? with
  | some c => pure c
  | none => fail (.indexOutOfRange operation i "string" s.length)

def indexArgument (args : List Value) (i : Nat) : HeapM Int := do
  let v ← argument args i
  let n ← orFail v.number
  orFault n.truncate

def textMethods : List String :=
  ["length", "size", "empty", "substr", "at", "find"]

/-- The part of a text from a position on, of a given length if there is one. -/
def substring (s : CodeText) (args : List Value) : HeapM Value := do
  let start ← if args.isEmpty then pure 0 else indexArgument args 0
  if start > s.length then fail (.substringStart start)
  if 1 < args.length then
    let count ← indexArgument args 1
    return .text (slice start (start + count) s)
  else return .text (slice start s.length s)

/-- A call of a member function that leaves the text as it is; further arguments are ignored. -/
def callText (s : CodeText) (name : String) (args : List Value) : HeapM Value :=
  match name with
  | "length" | "size" => pure (.int s.length)
  | "empty" => pure (.bool s.isEmpty)
  | "at" => do
    let i ← indexArgument args 0
    return .char [← charAt "string::at" s i]
  | "substr" => substring s args
  | "find" => do
    let needle ← plainText (← argument args 0)
    return .int (((findText? needle s).map Int.ofNat).getD (-1))
  | name => fail (.noMember "string" name)

end SmallCpp
