import Quantica.JsonCheck
import Quantica.Marshall
import Quantica.QuidText

namespace Quantica

open JsonText

/-! The string helpers of `common.c`. A string is given by its bytes, without the terminator. -/

/-- `strcmp`, where the answer is zero. -/
def streq (s t : List UInt8) : Bool := s.takeWhile (· ≠ 0) = t.takeWhile (· ≠ 0)

def upperTrueText : List UInt8 := [84, 82, 85, 69]
def upperFalseText : List UInt8 := [70, 65, 76, 83, 69]
def upperNullText : List UInt8 := [78, 85, 76, 76]

/-- `strisbool`, with nothing for -1. -/
def strisbool (str : List UInt8) : Option Bool :=
  if streq str trueText || streq str upperTrueText then some true
  else if streq str falseText || streq str upperFalseText then some false
  else none

def strisdigit (str : List UInt8) : Bool :=
  match str.takeWhile (· ≠ 0) with
  | 45 :: str => str.all isDigit
  | str => str.all isDigit

def strismatch (str tok : List UInt8) : Bool := (str.takeWhile (· ≠ 0)).all fun c => tok.contains c

def strccnt (str : List UInt8) (c : UInt8) : Nat := (str.takeWhile (· ≠ 0)).count c

/-- The tokens "-1234567890." of a number. -/
def numberTokens : List UInt8 := [45, 49, 50, 51, 52, 53, 54, 55, 56, 57, 48, 46]

/-! `quid.c` -/

/-- The loop of `strquid_format` over the hyphens, with those seen so far: how many there are, or
nothing when one stands in a wrong place. -/
def countHyphens (places : List Nat) : List UInt8 → Nat → Nat → Option Nat
  | [], _, nhyp => some nhyp
  | c :: s, phyp, nhyp =>
    if c = 45 then
      if phyp ∈ places then countHyphens places s (phyp + 1) (nhyp + 1) else none
    else countHyphens places s (phyp + 1) nhyp

def strquidFormat (s : List UInt8) : Nat :=
  let s := s.takeWhile (· ≠ 0)
  if s.length = quidLength then
    if s.head? ≠ some 123 ∨ s.getLast? ≠ some 125 then 0
    else if !s.all (fun c => isHex c || c = 123 || c = 125 || c = 45) then 0
    else if countHyphens [9, 14, 19, 24] s 0 0 = some 4 then 1 else 0
  else if s.length = quidLength - 2 then
    if !s.all (fun c => isHex c || c = 45) then 0
    else if countHyphens [8, 13, 18, 23] s 0 0 = some 4 then 2 else 0
  else 0

/-! `stresc.c` -/

/-- What is written for a character. -/
def escapeChar (c : UInt8) : List UInt8 :=
  match c with
  | 7 => [92, 97]
  | 8 => [92, 98]
  | 9 => [92, 116]
  | 10 => [92, 110]
  | 11 => [92, 118]
  | 12 => [92, 102]
  | 13 => [92, 114]
  | 92 => [92, 92]
  | 34 => [92, 34]
  | c => [c]

def stresc (src : List UInt8) : List UInt8 := (src.takeWhile (· ≠ 0)).flatMap escapeChar

/-! `marshall.c` -/

/-- `autoscalar`. The length is that of `data`. -/
def autoscalar (data : List UInt8) : MarshallType :=
  match data with
  | [] => .null
  | [c] =>
    if c = 48 ∨ c = 102 ∨ c = 70 then .false
    else if c = 49 ∨ c = 116 ∨ c = 84 then .true
    else if strisdigit data then .int
    else .string
  | _ =>
    match strisbool data with
    | some b => if b then .true else .false
    | none =>
      if strisdigit data then .int
      else if strismatch data numberTokens && strccnt data 46 = 1 && data.head? ≠ some 46 &&
          data.getLast? ≠ some 46 then .float
      else if 0 < strquidFormat data then .quid
      else if jsonValid data then .object
      else if streq data nullText || streq data upperNullText then .null
      else .string

end Quantica
