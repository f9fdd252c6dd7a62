import ComposableIndexes.Model.AggregateIndex
import ComposableIndexes.Model.BTreeIndex

namespace ComposableIndexes

inductive UnregisteredIndex : Type → Type 1 where
  | hashIndex {K : Type} [DecidableEq K] : UnregisteredIndex K
  | btreeIndex {K : Type} [LinearOrder K] [JsKey K] (lib : SortedBTree K IdSet) : UnregisteredIndex K
  | uniqueHashIndex {K : Type} [DecidableEq K] : UnregisteredIndex K
  | aggregate {In Value : Type} (a : UnregisteredAggregateIndex In Value) : UnregisteredIndex In
  | premap {In InnerIn : Type} (f : In → Option InnerIn) (inner : UnregisteredIndex InnerIn) :
      UnregisteredIndex In
  | group {In G : Type} [DecidableEq G] [JsKey G] (f : In → G) (inner : UnregisteredIndex In) :
      UnregisteredIndex In
  | zipNil {In : Type} : UnregisteredIndex In
  | zipCons {In : Type} (head tail : UnregisteredIndex In) : UnregisteredIndex In

namespace UnregisteredIndex

variable {In : Type}

def foldIndex {State Return : Type} (args : FoldArgs In State Return) : UnregisteredIndex In :=
  aggregate (.fold args)

def zip (ix₁ ix₂ : UnregisteredIndex In) : UnregisteredIndex In := zipCons ix₁ (zipCons ix₂ zipNil)

def zip3 (ix₁ ix₂ ix₃ : UnregisteredIndex In) : UnregisteredIndex In := zipCons ix₁ (zip ix₂ ix₃)

def zip4 (ix₁ ix₂ ix₃ ix₄ : UnregisteredIndex In) : UnregisteredIndex In := zipCons ix₁ (zip3 ix₂ ix₃ ix₄)

def zip5 (ix₁ ix₂ ix₃ ix₄ ix₅ : UnregisteredIndex In) : UnregisteredIndex In :=
  zipCons ix₁ (zip4 ix₂ ix₃ ix₄ ix₅)

def State : {In : Type} → UnregisteredIndex In → Type
  | _, @hashIndex K _ => HashIndex.State K
  | _, @btreeIndex _ _ _ lib => lib.Tree
  | _, @uniqueHashIndex K _ => UniqueHashIndex.State K
  | _, .aggregate a => a.State
  | _, .premap _ inner => inner.State
  | _, @group _ G _ _ _ inner => GroupedIndex.State G inner.State
  | _, .zipNil => Unit
  | _, .zipCons head tail => head.State × tail.State

def index (Out : Type) : {In : Type} → (e : UnregisteredIndex In) → Index In Out e.State
  | _, @hashIndex _ _ => HashIndex.index
  | _, @btreeIndex _ _ _ lib => BTreeIndex.index lib
  | _, @uniqueHashIndex _ _ => UniqueHashIndex.index
  | _, .aggregate a => a.index Out
  | _, .premap f inner => PremapIndex.index f (index Out inner)
  | _, @group _ _ _ _ f inner => GroupedIndex.index f (index Out inner)
  | _, .zipNil => ZipIndex.nil
  | _, .zipCons head tail => ZipIndex.cons (index Out head) (index Out tail)

def Lawful : {In : Type} → UnregisteredIndex In → Prop
  | _, @hashIndex _ _ => True
  | _, @btreeIndex _ _ _ _ => True
  | _, @uniqueHashIndex _ _ => True
  | _, .aggregate a => a.Lawful
  | _, .premap _ inner => inner.Lawful
  | _, @group _ _ _ _ _ inner => inner.Lawful
  | _, .zipNil => True
  | _, .zipCons head tail => head.Lawful ∧ tail.Lawful

def NoUnique : {In : Type} → UnregisteredIndex In → Prop
  | _, @hashIndex _ _ => True
  | _, @btreeIndex _ _ _ _ => True
  | _, @uniqueHashIndex _ _ => False
  | _, .aggregate _ => True
  | _, .premap _ inner => inner.NoUnique
  | _, @group _ _ _ _ _ inner => inner.NoUnique
  | _, .zipNil => True
  | _, .zipCons head tail => head.NoUnique ∧ tail.NoUnique

end UnregisteredIndex

inductive Query (Out : Type) : {In : Type} → UnregisteredIndex In → Type → Type 1 where
  | hashEq {K : Type} [DecidableEq K] (key : K) : Query Out (.hashIndex : UnregisteredIndex K) (List (Item Out))
  | hashCountDistinct {K : Type} [DecidableEq K] : Query Out (.hashIndex : UnregisteredIndex K) ℕ
  | btreeEq {K : Type} [LinearOrder K] [JsKey K] {lib : SortedBTree K IdSet} (key : K) :
      Query Out (.btreeIndex lib) (List (Item Out))
  | btreeCountDistinct {K : Type} [LinearOrder K] [JsKey K] {lib : SortedBTree K IdSet} :
      Query Out (.btreeIndex lib) ℕ
  | btreeMax {K : Type} [LinearOrder K] [JsKey K] {lib : SortedBTree K IdSet} :
      Query Out (.btreeIndex lib) (List (Item Out))
  | btreeMin {K : Type} [LinearOrder K] [JsKey K] {lib : SortedBTree K IdSet} :
      Query Out (.btreeIndex lib) (List (Item Out))
  | btreeMax1 {K : Type} [LinearOrder K] [JsKey K] {lib : SortedBTree K IdSet} :
      Query Out (.btreeIndex lib) (Option (Item Out))
  | btreeMin1 {K : Type} [LinearOrder K] [JsKey K] {lib : SortedBTree K IdSet} :
      Query Out (.btreeIndex lib) (Option (Item Out))
  | btreeRange {K : Type} [LinearOrder K] [JsKey K] {lib : SortedBTree K IdSet} (minValue maxValue : K)
      (limit : Option ℕ) : Query Out (.btreeIndex lib) (List (Item Out))
  | uniqueEq {K : Type} [DecidableEq K] (key : K) :
      Query Out (.uniqueHashIndex : UnregisteredIndex K) (Option (Item Out))
  | uniqueCountDistinct {K : Type} [DecidableEq K] : Query Out (.uniqueHashIndex : UnregisteredIndex K) ℕ
  | value {In Value : Type} {a : UnregisteredAggregateIndex In Value} : Query Out (.aggregate a) Value
  | premapGet {In InnerIn R : Type} {f : In → Option InnerIn} {inner : UnregisteredIndex InnerIn}
      (q : Query Out inner R) : Query Out (.premap f inner) R
  | groupHas {In G : Type} [DecidableEq G] [JsKey G] {f : In → G} {inner : UnregisteredIndex In} (g : G) :
      Query Out (.group f inner) Bool
  | groupGet {In G R : Type} [DecidableEq G] [JsKey G] {f : In → G} {inner : UnregisteredIndex In} (g : G)
      (q : Query Out inner R) : Query Out (.group f inner) (Option R)
  | zipHead {In R : Type} {head tail : UnregisteredIndex In} (q : Query Out head R) :
      Query Out (.zipCons head tail) R
  | zipTail {In R : Type} {head tail : UnregisteredIndex In} (q : Query Out tail R) :
      Query Out (.zipCons head tail) R

namespace Query

variable {Out : Type}

def run (ctx : IndexContext Out) : {In R : Type} → {e : UnregisteredIndex In} → Query Out e R → e.State →
    Except (Exception Out) R
  | _, _, _, @hashEq _ _ _ key, s => .ok (HashIndex.eq ctx s key)
  | _, _, _, @hashCountDistinct _ _ _, s => .ok (HashIndex.countDistinct s)
  | _, _, _, @btreeEq _ _ _ _ lib key, s => .ok (BTreeIndex.eq lib ctx s key)
  | _, _, _, @btreeCountDistinct _ _ _ _ lib, s => .ok (BTreeIndex.countDistinct lib s)
  | _, _, _, @btreeMax _ _ _ _ lib, s => .ok (BTreeIndex.max lib ctx s)
  | _, _, _, @btreeMin _ _ _ _ lib, s => .ok (BTreeIndex.min lib ctx s)
  | _, _, _, @btreeMax1 _ _ _ _ lib, s => BTreeIndex.max1 lib ctx s
  | _, _, _, @btreeMin1 _ _ _ _ lib, s => BTreeIndex.min1 lib ctx s
  | _, _, _, @btreeRange _ _ _ _ lib minValue maxValue limit, s =>
      .ok (BTreeIndex.range lib ctx s minValue maxValue limit)
  | _, _, _, @uniqueEq _ _ _ key, s => .ok (UniqueHashIndex.eq ctx s key)
  | _, _, _, @uniqueCountDistinct _ _ _, s => .ok (UniqueHashIndex.countDistinct s)
  | _, _, _, @value _ _ _ a, s => .ok (a.value s)
  | _, _, _, .premapGet q, s => run ctx q s
  | _, _, _, @groupHas _ _ _ _ _ _ _ g, s => .ok (OrderedMap.has s g)
  | _, _, _, @groupGet _ _ _ _ _ _ _ _ g q, s =>
      match OrderedMap.get s g with
      | none => .ok none
      | some inner => (run ctx q inner).map some
  | _, _, _, .zipHead q, s => run ctx q s.1
  | _, _, _, .zipTail q, s => run ctx q s.2

def items : {In R : Type} → {e : UnregisteredIndex In} → Query Out e R → R → List (Item Out)
  | _, _, _, @hashEq _ _ _ _, r => r
  | _, _, _, @hashCountDistinct _ _ _, _ => []
  | _, _, _, @btreeEq _ _ _ _ _ _, r => r
  | _, _, _, @btreeCountDistinct _ _ _ _ _, _ => []
  | _, _, _, @btreeMax _ _ _ _ _, r => r
  | _, _, _, @btreeMin _ _ _ _ _, r => r
  | _, _, _, @btreeMax1 _ _ _ _ _, r => r.toList
  | _, _, _, @btreeMin1 _ _ _ _ _, r => r.toList
  | _, _, _, @btreeRange _ _ _ _ _ _ _ _, r => r
  | _, _, _, @uniqueEq _ _ _ _, r => r.toList
  | _, _, _, @uniqueCountDistinct _ _ _, _ => []
  | _, _, _, .value, _ => []
  | _, _, _, .premapGet q, r => items q r
  | _, _, _, @groupHas _ _ _ _ _ _ _ _, _ => []
  | _, _, _, @groupGet _ _ _ _ _ _ _ _ _ q, r => r.elim [] (items q)
  | _, _, _, .zipHead q, r => items q r
  | _, _, _, .zipTail q, r => items q r

end Query

end ComposableIndexes
