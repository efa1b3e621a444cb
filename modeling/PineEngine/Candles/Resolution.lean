import PineEngine.Value.Entry

/-! # Resolutions

A resolution is the time between two candles, in minutes. It is written as a number of minutes below one
hour, of hours below one day, and of days from there on; one hour and one day are written without a
number.
-/

namespace PineEngine.Resolution

def all : List Nat :=
  [1, 3, 5, 15, 30, 60, 120, 240, 360, 720, 1440]

def withUnit (n : Int) (unit : String) : String :=
  if n == 1 then unit else toString n ++ unit

def write (r : Value) : Except Fault String := do
  if ← Value.holds .lt r (.int 60) then pure r.printed
  else if ← Value.holds .lt r (.int 1440) then
    let n ← (← Value.arith .div r (.int 60)).toInt
    pure (withUnit n "H")
  else
    let n ← (← Value.arith .div (← Value.arith .div r (.int 60)) (.int 24)).toInt
    pure (withUnit n "D")

def scale (n : Value) (minutes : Nat) : Except Fault Value :=
  Value.arith .mul (if n.isTrue then n else .int 1) (.int minutes)

def splitLast : Value → Except Fault (Value × Value)
  | .text s =>
    match s.toList.reverse with
    | [] => .error .index
    | c :: rest => .ok (.text (String.ofList rest.reverse), .text (String.singleton c))
  | .list items =>
    match items.reverse with
    | [] => .error .index
    | v :: rest => .ok (.list rest.reverse, v)
  | .dict _ => .error .key
  | _ => .error .operands

/-- The resolution that a value stands for: a number of minutes, or a text that ends with the letter of
    its unit. What stands before the letter is repeated, not multiplied. -/
def read (v : Value) : Except Fault Value :=
  match v.toInt with
  | .ok n => .ok (.int n)
  | .error _ => do
    let (n, unit) ← splitLast v
    if unit.same (.text "H") then scale n 60
    else if unit.same (.text "D") then scale n 1440
    else .error .name

/-- Groups of resolutions: each resolution that is fetched, the coarsest first, with those that are
    computed from it. -/
def groups (fetched : List Value) : Except Fault (List (Value × List Nat)) :=
  go fetched.reverse all.reverse
where
  /-- `rest` are the resolutions that no group has yet, the coarsest first. -/
  go : List Value → List Nat → Except Fault (List (Value × List Nat))
    | [], _ => .ok []
    | r :: more, rest => do
      let (children, rest) ← take r [] rest
      pure ((r, children) :: (← go more rest))
  /-- The resolutions above one that is fetched; the one after them is dropped. -/
  take (r : Value) (children : List Nat) : List Nat → Except Fault (List Nat × List Nat)
    | [] => .error .index
    | n :: rest => do
      if ← Value.holds .lt r (.int n) then take r (n :: children) rest
      else pure (children, rest)

end PineEngine.Resolution
