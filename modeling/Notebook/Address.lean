/-
  Network addresses, as a host and a port are written.

  A host is an IPv4 address, four numbers with points between them, or an IPv6
  address in square brackets: eight groups of hexadecimal figures with colons
  between them, where two colons may stand for groups of zeros and an IPv4
  address for the last two groups.
-/
import Notebook.Numeral

namespace Notebook

namespace Address

/-- Whether a text is a number of an IPv4 address: at most 255, without leading
    zeros. -/
def isOctet (t : Text) : Bool :=
  !t.isEmpty && t.length ≤ 3 && t.all Text.isFigure && Numeral.natural t ≤ 255 &&
    (t.length == 1 || t.head? != some '0')

/-- Whether a text is an IPv4 address. -/
def isIPv4 (t : Text) : Bool :=
  let octets := t.splitOn '.'
  octets.length == 4 && octets.all isOctet

/-- Whether a text is a group of an IPv6 address. -/
def isGroup (t : Text) : Bool :=
  !t.isEmpty && t.length ≤ 4 && t.all fun c =>
    Text.isFigure c || ('a' ≤ c && c ≤ 'f') || ('A' ≤ c && c ≤ 'F')

/-- How many groups texts are, if the last may be an IPv4 address. -/
def countGroups? (mayEndIPv4 : Bool) : List Text → Option Nat
  | [] => some 0
  | [last] =>
    if isGroup last then some 1
    else if mayEndIPv4 && isIPv4 last then some 2
    else none
  | t :: rest => if isGroup t then (countGroups? mayEndIPv4 rest).map (· + 1) else none

/-- The groups of a part of an IPv6 address; an empty part has none. -/
def groups (t : Text) : List Text := if t.isEmpty then [] else t.splitOn ':'

/-- What stands before the first two colons in a row, and what follows them. -/
def cutGap? (before : Text) : Text → Option (Text × Text)
  | ':' :: ':' :: rest => some (before.reverse, rest)
  | c :: rest => cutGap? (c :: before) rest
  | [] => none

/-- Whether a text is an IPv6 address. -/
def isIPv6 (t : Text) : Bool :=
  match cutGap? [] t with
  | none => countGroups? true (groups t) == some 8
  | some (head, tail) =>
    match countGroups? false (groups head), countGroups? true (groups tail) with
    | some m, some n => m + n ≤ 7
    | _, _ => false

/-- Whether a text is an IPv6 address, perhaps with the number of a zone after a
    percent sign. -/
def isZoned (t : Text) : Bool :=
  match Text.cutAt? '%' t with
  | some (address, zone) =>
    isIPv6 address && !zone.isEmpty && zone.all Text.isFigure &&
      Numeral.natural zone < twoTo 32
  | none => isIPv6 t

/-- Whether a host can be listened at. -/
def isHost (t : Text) : Bool :=
  isIPv4 t ||
    match t with
    | '[' :: rest => rest.getLast? == some ']' && isZoned rest.dropLast
    | _ => false

end Address

end Notebook
