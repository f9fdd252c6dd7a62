import ComposableIndexes.Model.HashIndex
import Mathlib.Data.List.Sort

namespace ComposableIndexes

-- The package `sorted-btree`: a finite map over a linear order of keys. `stop n` is the number of entries that
-- a limit of `n` lets through.
structure SortedBTree (K V : Type) [LinearOrder K] where
  Tree : Type
  new : Tree
  entries : Tree → List (K × V)
  get : Tree → K → Option V
  set : Tree → K → V → Tree
  delete : Tree → K → Tree
  size : Tree → ℕ
  minKey : Tree → Option K
  maxKey : Tree → Option K
  getRange : Tree → K → K → Bool → Option ℕ → List (K × V)
  stop : ℕ → ℕ
  ascending : ∀ t, (entries t).Pairwise (fun p q => p.1 < q.1)
  mem_entries : ∀ t k v, (k,v) ∈ entries t ↔ get t k = some v
  get_new : ∀ k, get new k = none
  get_set : ∀ t k v k', get (set t k v) k' = if k' = k then some v else get t k'
  get_delete : ∀ t k k', get (delete t k) k' = if k' = k then none else get t k'
  size_eq : ∀ t, size t = (entries t).length
  minKey_eq : ∀ t, minKey t = (entries t).head?.map Prod.fst
  maxKey_eq : ∀ t, maxKey t = (entries t).getLast?.map Prod.fst
  getRange_eq : ∀ t low high limit, getRange t low high true limit =
    match limit with
    | none => (entries t).filter (fun p => low ≤ p.1 ∧ p.1 ≤ high)
    | some n => ((entries t).filter (fun p => low ≤ p.1 ∧ p.1 ≤ high)).take (stop n)

namespace SortedBTree

variable {K V : Type} [LinearOrder K]

-- What the package's documentation says of the limit.
def StopsAtLimit (lib : SortedBTree K V) : Prop := ∀ n, lib.stop n = n

def sortedEntries (m : OrderedMap K V) : List (K × V) := m.entries.insertionSort (fun p q => p.1 ≤ q.1)

theorem sortedEntries_ascending (m : OrderedMap K V) :
    (sortedEntries m).Pairwise (fun p q => p.1 < q.1) := by
  have htotal : Std.Total (fun p q : K × V => p.1 ≤ q.1) := ⟨fun p q => le_total p.1 q.1⟩
  have htrans : IsTrans (K × V) (fun p q => p.1 ≤ q.1) := ⟨fun _ _ _ => le_trans⟩
  have hle : (sortedEntries m).Pairwise (fun p q => p.1 ≤ q.1) := List.pairwise_insertionSort _ m.entries
  have hperm : (sortedEntries m).Perm m.entries := List.perm_insertionSort _ m.entries
  have hne : (sortedEntries m).Pairwise (fun p q => p.1 ≠ q.1) := by
    rw [← List.pairwise_map (R := fun a b => a ≠ b)]
    exact (hperm.map Prod.fst).nodup_iff.mpr m.nodupKeys
  exact (hle.and hne).imp (fun h => lt_of_le_of_ne h.1 h.2)

def ofSorting (K V : Type) [LinearOrder K] (stop : ℕ → ℕ) : SortedBTree K V where
  Tree := OrderedMap K V
  new := OrderedMap.empty
  entries := sortedEntries
  get := OrderedMap.get
  set := OrderedMap.set
  delete := OrderedMap.delete
  size := OrderedMap.size
  minKey m := (sortedEntries m).head?.map Prod.fst
  maxKey m := (sortedEntries m).getLast?.map Prod.fst
  getRange m low high includeHigh limit :=
    let within := (sortedEntries m).filter (fun p => low ≤ p.1 ∧ (p.1 < high ∨ includeHigh ∧ p.1 = high))
    limit.elim within (fun n => within.take (stop n))
  stop := stop
  ascending := sortedEntries_ascending
  mem_entries m k v := by
    rw [sortedEntries,List.mem_insertionSort,m.mem_entries]
  get_new := OrderedMap.get_empty
  get_set m k v k' := m.get_set k k' v
  get_delete m k k' := m.get_delete k k'
  size_eq m := (List.length_insertionSort _ m.entries).symm
  minKey_eq _ := rfl
  maxKey_eq _ := rfl
  getRange_eq m low high limit := by
    cases limit <;> simp [le_iff_lt_or_eq]

def documented (K V : Type) [LinearOrder K] : SortedBTree K V := ofSorting K V (fun n => n)

-- Version 1.8.1 stops one entry later than its documentation says.
def installed (K V : Type) [LinearOrder K] : SortedBTree K V := ofSorting K V (fun n => n + 1)

theorem documented_stopsAtLimit : (documented K V).StopsAtLimit := fun _ => rfl

end SortedBTree

namespace BTreeIndex

variable {K Out : Type} [LinearOrder K] [JsKey K] (lib : SortedBTree K IdSet)

def add (id : Id) (value : K) (ix : lib.Tree) : lib.Tree :=
  match lib.get ix value with
  | some set => lib.set ix value (set.set id)
  | none => lib.set ix value (IdSet.singleton id)

def delete (id : Id) (oldValue : K) (ix : lib.Tree) : lib.Tree :=
  match lib.get ix oldValue with
  | none => ix
  | some set =>
      if (set.delete id).empty then lib.delete ix oldValue
      else lib.set ix oldValue (set.delete id)

def update (id : Id) (oldValue newValue : K) (ix : lib.Tree) : lib.Tree :=
  if strictEq oldValue newValue then ix
  else add lib id newValue (delete lib id oldValue ix)

def index : Index K Out lib.Tree where
  create := lib.new
  onUpdate _ u := pure (match u with
    | .add id value => Procedure.write (add lib id value)
    | .update id oldValue newValue => Procedure.write (update lib id oldValue newValue)
    | .delete id oldValue => Procedure.write (delete lib id oldValue))

def countDistinct (ix : lib.Tree) : ℕ := lib.size ix

def eq (ctx : IndexContext Out) (ix : lib.Tree) (value : K) : List (Item Out) :=
  HashIndex.items ctx (lib.get ix value)

def extremes (ctx : IndexContext Out) (ix : lib.Tree) (key : Option K) : List (Item Out) :=
  match key with
  | none => []
  | some k => HashIndex.items ctx (lib.get ix k)

def extreme1 (ctx : IndexContext Out) (ix : lib.Tree) (key : Option K) :
    Except (Exception Out) (Option (Item Out)) :=
  match key with
  | none => .ok none
  | some k =>
      match lib.get ix k with
      | none => .error .typeError
      | some set => .ok (set.values.head?.map ctx.item)

def max (ctx : IndexContext Out) (ix : lib.Tree) : List (Item Out) := extremes lib ctx ix (lib.maxKey ix)

def min (ctx : IndexContext Out) (ix : lib.Tree) : List (Item Out) := extremes lib ctx ix (lib.minKey ix)

def max1 (ctx : IndexContext Out) (ix : lib.Tree) : Except (Exception Out) (Option (Item Out)) :=
  extreme1 lib ctx ix (lib.maxKey ix)

def min1 (ctx : IndexContext Out) (ix : lib.Tree) : Except (Exception Out) (Option (Item Out)) :=
  extreme1 lib ctx ix (lib.minKey ix)

def range (ctx : IndexContext Out) (ix : lib.Tree) (minValue maxValue : K) (limit : Option ℕ) :
    List (Item Out) :=
  (lib.getRange ix minValue maxValue true limit).flatMap (fun p => p.2.values.map ctx.item)

end BTreeIndex

end ComposableIndexes
