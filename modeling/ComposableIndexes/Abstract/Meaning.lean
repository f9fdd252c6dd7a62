import ComposableIndexes.Abstract.Expression
import Mathlib.Data.Set.Card

namespace ComposableIndexes

variable {Out : Type}

section Picks

variable {root : Contents Out} {X : Set (BitVec 64)} {items items' : List (Item Out)} {P : Id → Prop}
  {r r' : Option (Item Out)}

-- `items` lists the ids of `X`, each once, with the values that `root` has for them.
structure Picks (root : Contents Out) (X : Set (BitVec 64)) (items : List (Item Out)) : Prop where
  once : (items.map Item.id).Nodup
  mem : ∀ it, it ∈ items ↔ it.id.Unsigned ∧ it.id.bits ∈ X ∧ it.value = root it.id.bits

structure Chooses (P : Id → Prop) (root : Contents Out) (X : Set (BitVec 64)) (r : Option (Item Out)) : Prop where
  absent : r = none ↔ X = ∅
  mem : ∀ it, r = some it → P it.id ∧ it.id.bits ∈ X ∧ it.value = root it.id.bits

theorem Picks.of_empty (h : Picks root ∅ items) : items = [] := by
  rw [List.eq_nil_iff_forall_not_mem]
  intro it hit
  exact ((h.mem it).mp hit).2.1

theorem Chooses.isSome_eq (h : Chooses P root X r) (h' : Chooses P root X r') : r.isSome = r'.isSome := by
  rw [Bool.eq_iff_iff,← not_iff_not,Bool.not_eq_true,Bool.not_eq_true,Option.isSome_eq_false_iff,
    Option.isSome_eq_false_iff,Option.isNone_iff_eq_none,Option.isNone_iff_eq_none,h.absent,h'.absent]

theorem Chooses.unique (hX : X.Subsingleton) (h : Chooses Id.Unsigned root X r) (h' : Chooses Id.Unsigned root X r') :
    r = r' := by
  have hs := h.isSome_eq h'
  cases r with
  | none =>
    cases r' with
    | none => rfl
    | some b => simp at hs
  | some a =>
    cases r' with
    | none => simp at hs
    | some b =>
      obtain ⟨hua,hxa,hva⟩ := h.mem a rfl
      obtain ⟨hub,hxb,hvb⟩ := h'.mem b rfl
      have hid : a.id = b.id := Id.eq_of_bits hua hub (hX hxa hxb)
      obtain ⟨ida,va⟩ := a
      obtain ⟨idb,vb⟩ := b
      simp only at hid hva hvb
      rw [hid,hva,hvb,hid]

end Picks

section Keys

variable {K : Type} {S : Contents K}

def occurring (S : Contents K) : Set K := {x | ∃ i, S i = some x}

def withKey (S : Contents K) (x : K) : Set (BitVec 64) := {i | S i = some x}

variable [LinearOrder K]

def extremal (extreme : Set K → K → Prop) (S : Contents K) : Set (BitVec 64) :=
  {i | ∃ x, S i = some x ∧ extreme (occurring S) x}

-- The keys from `lo` that come before `x`.
def preceding (S : Contents K) (lo x : K) : Set K := {y | lo ≤ y ∧ y < x ∧ y ∈ occurring S}

-- A limit counts keys: where `n` entries pass, it admits the items of the first `n` keys from `lo`.
def window (S : Contents K) (lo hi : K) (limit : Option ℕ) : Set (BitVec 64) :=
  {i | ∃ x, S i = some x ∧ lo ≤ x ∧ x ≤ hi ∧ ∀ n, limit = some n → (preceding S lo x).ncard < n}

def Ascends (S : Contents K) (items : List (Item Out)) : Prop :=
  items.Pairwise (fun a b => ∀ x y, S a.id.bits = some x → S b.id.bits = some y → x ≤ y)

end Keys

namespace UnregisteredAggregateIndex

def Means : {In Value : Type} → UnregisteredAggregateIndex In Value → Contents In → Value → Prop
  | _, _, .fold args, S, r =>
      ∀ l : List _, (l : Multiset _) = S.values → r = args.result (l.foldl args.add args.init)
  | _, _, @mapAggregate _ _ _ _ _ _ inner pre m, S, r => ∃ v, inner.Means (S.filterMap (JsValue.onValues pre)) v ∧ r = m v

theorem Means.unique {In Value : Type} {a : UnregisteredAggregateIndex In Value} {S : Contents In} {r r' : Value}
    (h : a.Means S r) (h' : a.Means S r') : r = r' := by
  induction a with
  | fold args => exact (h _ (Multiset.coe_toList _)).trans (h' _ (Multiset.coe_toList _)).symm
  | mapAggregate inner pre m ih =>
    obtain ⟨v,hv,rfl⟩ := h
    obtain ⟨v',hv',rfl⟩ := h'
    rw [ih hv hv']

theorem means_of_holds {In Value : Type} (a : UnregisteredAggregateIndex In Value) (hl : a.Lawful) {S : Contents In}
    {s : a.State} (h : a.Holds S s) : a.Means S (a.value s) := by
  induction a with
  | fold args =>
    intro l hv
    have hs : s = FoldIndex.total args hl S.values := h hl
    have ht : FoldIndex.total args hl S.values = l.foldl args.add args.init := by
      rw [← hv]
      rfl
    rw [← ht,← hs]
    rfl
  | mapAggregate inner pre m ih => exact ⟨_,ih hl h,rfl⟩

end UnregisteredAggregateIndex

namespace Query

-- What an answer says about the contents `S` of the index and the contents `root` of the collection,
-- `P` being true of the ids that were handed to the collection.
def Means (P : Id → Prop) (root : Contents Out) : {In R : Type} → {e : UnregisteredIndex In} → Query Out e R →
    Contents In → R → Prop
  | _, _, _, @hashEq _ _ _ key, S, r => Picks root (withKey S key) r
  | _, _, _, @hashCountDistinct _ _ _, S, r => r = (occurring S).ncard
  | _, _, _, @btreeEq _ _ _ _ _ key, S, r => Picks root (withKey S key) r
  | _, _, _, @btreeCountDistinct _ _ _ _ _, S, r => r = (occurring S).ncard
  | _, _, _, @btreeMax _ _ _ _ _, S, r => Picks root (extremal IsGreatest S) r
  | _, _, _, @btreeMin _ _ _ _ _, S, r => Picks root (extremal IsLeast S) r
  | _, _, _, @btreeMax1 _ _ _ _ _, S, r => Chooses Id.Unsigned root (extremal IsGreatest S) r
  | _, _, _, @btreeMin1 _ _ _ _ _, S, r => Chooses Id.Unsigned root (extremal IsLeast S) r
  | _, _, _, @btreeRange _ _ _ _ lib minValue maxValue limit, S, r =>
      Picks root (window S minValue maxValue (limit.map lib.stop)) r ∧ Ascends S r
  | _, _, _, @uniqueEq _ _ _ key, S, r => (withKey S key).Subsingleton ∧ Chooses P root (withKey S key) r
  | _, _, _, @uniqueCountDistinct _ _ _, S, r => r = (occurring S).ncard
  | _, _, _, @value _ _ _ a, S, r => a.Means S r
  | _, _, _, @premapGet _ _ _ _ f _ q, S, r => Means P root q (S.filterMap f) r
  | _, _, _, @groupHas _ _ _ _ _ f _ g, S, r => r = false → S.filterMap (GroupedIndex.part f g) = PartialMap.empty
  | _, _, _, @groupGet _ _ _ _ _ _ f _ g q, S, r =>
      (r = none → S.filterMap (GroupedIndex.part f g) = PartialMap.empty) ∧
      ∀ a, r = some a → Means P root q (S.filterMap (GroupedIndex.part f g)) a
  | _, _, _, .zipHead q, S, r => Means P root q S r
  | _, _, _, .zipTail q, S, r => Means P root q S r

-- The same answer for the contents `S` of the index, up to the order of a list, the choice among tied items and,
-- where a group has no items in `S`, whether it is there.
def Alike : {In R : Type} → {e : UnregisteredIndex In} → Query Out e R → Contents In → R → R → Prop
  | _, _, _, @hashEq _ _ _ _, _, r, r' => r.Perm r'
  | _, _, _, @hashCountDistinct _ _ _, _, r, r' => r = r'
  | _, _, _, @btreeEq _ _ _ _ _ _, _, r, r' => r.Perm r'
  | _, _, _, @btreeCountDistinct _ _ _ _ _, _, r, r' => r = r'
  | _, _, _, @btreeMax _ _ _ _ _, _, r, r' => r.Perm r'
  | _, _, _, @btreeMin _ _ _ _ _, _, r, r' => r.Perm r'
  | _, _, _, @btreeMax1 _ _ _ _ _, _, r, r' => r.isSome = r'.isSome
  | _, _, _, @btreeMin1 _ _ _ _ _, _, r, r' => r.isSome = r'.isSome
  | _, _, _, @btreeRange _ _ _ _ _ _ _ _, _, r, r' => r.Perm r'
  | _, _, _, @uniqueEq _ _ _ _, _, r, r' => r = r'
  | _, _, _, @uniqueCountDistinct _ _ _, _, r, r' => r = r'
  | _, _, _, .value, _, r, r' => r = r'
  | _, _, _, @premapGet _ _ _ _ f _ q, S, r, r' => Alike q (S.filterMap f) r r'
  | _, _, _, @groupHas _ _ _ _ _ f _ g, S, r, r' => r ≠ r' → S.filterMap (GroupedIndex.part f g) = PartialMap.empty
  | _, _, _, @groupGet _ _ _ _ _ _ f _ g q, S, r, r' =>
      (r.isSome ≠ r'.isSome → S.filterMap (GroupedIndex.part f g) = PartialMap.empty) ∧
      ∀ a b, r = some a → r' = some b → Alike q (S.filterMap (GroupedIndex.part f g)) a b
  | _, _, _, .zipHead q, S, r, r' => Alike q S r r'
  | _, _, _, .zipTail q, S, r, r' => Alike q S r r'

end Query

end ComposableIndexes
