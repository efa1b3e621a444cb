import PineEngine.Chart
import PineEngine.Proofs.Prefixes
import PineEngine.Proofs.Tracks

/-! # Layouts of order books

A side of a book with two levels, given as a list of pairs, is taken for a pair of lists. Every other one that has
levels is read alike in both layouts (`Chart.addBoard_rows`).
-/

namespace PineEngine.Chart

open List

namespace OrderBook

def rows (ls : List Level) : Value :=
  .list (ls.map fun l => .list [l.price, l.size])

def columns (ls : List Level) : Value :=
  .list [.list (ls.map Level.price), .list (ls.map Level.size)]

/-- What a list of pairs is taken for. -/
def taken : List Level → Value
  | [] => rows []
  | [l, m] => columns [⟨l.price, m.price⟩, ⟨l.size, m.size⟩]
  | ls => columns ls

variable (l : Level) (ls : List Level)

end OrderBook

open OrderBook

variable (wanted : Value) (e : Emphasis)

end PineEngine.Chart
