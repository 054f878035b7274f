import Rebuild.Toml.Value

/-!
# Tables under construction

A table may be opened by a header, implied by a header below it, or grown by
dotted keys. What it came from decides what may still be added to it. A header
may open a table once, and again only if so far it was just implied. Dotted
keys grow tables that dotted keys have made. A value is closed.
-/

set_option autoImplicit false

namespace Rebuild.Toml

inductive Origin where
  | header
  | implied
  | dotted
  deriving DecidableEq, Repr

inductive Node where
  | value (v : Value)
  | table (origin : Origin) (entries : List (String × Node))
  | tables (backward : List (List (String × Node)))

abbrev Nodes := List (String × Node)

namespace Nodes

def get? (nodes : Nodes) (key : String) : Option Node :=
  (nodes.find? (fun e => e.1 == key)).map Prod.snd

def set (key : String) (node : Node) : Nodes → Nodes
  | [] => [(key, node)]
  | (k, n) :: rest => if k = key then (key, node) :: rest else (k, n) :: set key node rest

def erase (nodes : Nodes) (key : String) : Nodes := nodes.filter (fun e => e.1 != key)

/-- Adds the value of a dotted key. `isOpen` says whether the table reached may take it. -/
def insert (key : String) (v : Value) : Bool → List String → Nodes → Option Nodes
  | isOpen, [], nodes =>
    if isOpen && (get? nodes key).isNone then some (nodes ++ [(key, .value v)]) else none
  | _, k :: path, nodes =>
    match get? nodes k with
    | none => (insert key v true path []).map (fun child => set k (.table .dotted child) nodes)
    | some (.table .dotted child) =>
      (insert key v true path child).map (fun child => set k (.table .dotted child) nodes)
    | some (.table .implied child) =>
      (insert key v false path child).map (fun child => set k (.table .implied child) nodes)
    | some (.tables (last :: older)) =>
      (insert key v false path last).map (fun last => set k (.tables (last :: older)) nodes)
    | some _ => none

def reach (change : String → Nodes → Option Nodes) : String → List String → Nodes → Option Nodes
  | key, [], nodes => change key nodes
  | k, key :: path, nodes =>
    match get? nodes k with
    | none =>
      (reach change key path []).map (fun child => set k (.table .implied child) nodes)
    | some (.table origin child) =>
      (reach change key path child).map (fun child => set k (.table origin child) nodes)
    | some (.tables (last :: older)) =>
      (reach change key path last).map (fun last => set k (.tables (last :: older)) nodes)
    | some _ => none

end Nodes

structure Pair where
  path : List String
  key : String
  value : Value

def Nodes.insertPairs (nodes : Nodes) (pairs : List Pair) : Option Nodes :=
  pairs.foldlM (fun nodes p => nodes.insert p.key p.value true p.path) nodes

inductive Header where
  | table (key : String) (path : List String)
  | tables (key : String) (path : List String)

structure Section where
  header : Header
  pairs : List Pair

namespace Nodes

/-- A table that was only implied is opened with what it holds and moves to the end. -/
def openTable (pairs : List Pair) (key : String) (nodes : Nodes) : Option Nodes :=
  match get? nodes key with
  | none => (insertPairs [] pairs).map (fun child => nodes ++ [(key, .table .header child)])
  | some (.table .implied child) =>
    (insertPairs child pairs).map
      (fun child => erase nodes key ++ [(key, .table .header child)])
  | some _ => none

def pushTable (pairs : List Pair) (key : String) (nodes : Nodes) : Option Nodes :=
  match get? nodes key with
  | none => (insertPairs [] pairs).map (fun child => nodes ++ [(key, .tables [child])])
  | some (.tables backward) =>
    (insertPairs [] pairs).map (fun child => set key (.tables (child :: backward)) nodes)
  | some _ => none

def addSection (nodes : Nodes) (s : Section) : Option Nodes :=
  match s.header with
  | .table key path => reach (openTable s.pairs) key path nodes
  | .tables key path => reach (pushTable s.pairs) key path nodes

end Nodes

mutual

def Node.toValue : Node → Value
  | .value v => v
  | .table _ entries => .table (entriesOf entries)
  | .tables backward => .array (tablesOf backward [])

def entriesOf : List (String × Node) → Entries
  | [] => []
  | (k, n) :: rest => (k, n.toValue) :: entriesOf rest

/-- The last table comes first in construction. -/
def tablesOf : List (List (String × Node)) → List Value → List Value
  | [], acc => acc
  | t :: rest, acc => tablesOf rest (.table (entriesOf t) :: acc)

end

end Rebuild.Toml
