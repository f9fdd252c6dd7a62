import ComposableIndexes.Abstract.Combinators
import ComposableIndexes.Abstract.Leaves
import ComposableIndexes.Model.UnregisteredIndex

namespace ComposableIndexes

namespace UnregisteredAggregateIndex

def Holds : {In Value : Type} → (a : UnregisteredAggregateIndex In Value) → Contents In → a.State → Prop
  | _, _, .fold args => FoldIndex.Holds args
  | _, _, @mapAggregate _ _ _ _ _ _ inner pre _ => PremapIndex.Holds (JsValue.onValues pre) inner.Holds

theorem refines {In Value : Type} (Out : Type) (P : Id → Prop) (a : UnregisteredAggregateIndex In Value) :
    Refines a.Holds never never P (a.index Out) := by
  induction a with
  | fold args => exact FoldIndex.refines P args
  | mapAggregate inner pre m ih =>
    have h := PremapIndex.refines (JsValue.onValues pre) ih
    have hn : PremapIndex.Through (JsValue.onValues pre) never = never := by
      funext S u
      exact propext ⟨fun ⟨_,_,hf⟩ => hf,False.elim⟩
    rwa [hn] at h

end UnregisteredAggregateIndex

namespace UnregisteredIndex

def Holds (P : Id → Prop) : {In : Type} → (e : UnregisteredIndex In) → Contents In → e.State → Prop
  | _, @hashIndex _ _ => HashIndex.Holds
  | _, @btreeIndex _ _ _ lib => BTreeIndex.Holds lib
  | _, @uniqueHashIndex _ _ => UniqueHashIndex.Holds P
  | _, .aggregate a => a.Holds
  | _, .premap f inner => PremapIndex.Holds f (Holds P inner)
  | _, @group _ _ _ _ f inner => GroupedIndex.Holds f (Holds P inner)
  | _, .zipNil => fun _ _ => True
  | _, .zipCons head tail => ZipIndex.Holds (Holds P head) (Holds P tail)

def Rejects : {In : Type} → UnregisteredIndex In → Contents In → Update In → Prop
  | _, @hashIndex _ _ => never
  | _, @btreeIndex _ _ _ _ => never
  | _, @uniqueHashIndex _ _ => UniqueHashIndex.Rejects
  | _, .aggregate _ => never
  | _, .premap f inner => PremapIndex.Through f inner.Rejects
  | _, @group _ _ _ _ f inner => GroupedIndex.Rejects f inner.Rejects
  | _, .zipNil => never
  | _, .zipCons head tail => ZipIndex.Either head.Rejects tail.Rejects

def Defers : {In : Type} → UnregisteredIndex In → Contents In → Update In → Prop
  | _, @hashIndex _ _ => never
  | _, @btreeIndex _ _ _ _ => never
  | _, @uniqueHashIndex _ _ => never
  | _, .aggregate _ => never
  | _, .premap f inner => PremapIndex.Through f inner.Defers
  | _, @group _ _ _ _ f inner => GroupedIndex.Defers f inner.Rejects inner.Defers
  | _, .zipNil => never
  | _, .zipCons head tail => ZipIndex.Either head.Defers tail.Defers

def Clashes {In : Type} (e : UnregisteredIndex In) (S : Contents In) (u : Update In) : Prop :=
  e.Rejects S u ∨ e.Defers S u

theorem refines {In : Type} (Out : Type) (P : Id → Prop) (e : UnregisteredIndex In) :
    Refines (e.Holds P) e.Rejects e.Defers P (e.index Out) := by
  induction e with
  | hashIndex => exact HashIndex.refines P
  | btreeIndex lib => exact BTreeIndex.refines P
  | uniqueHashIndex => exact UniqueHashIndex.refines P
  | aggregate a => exact a.refines Out P
  | premap f inner ih => exact PremapIndex.refines f ih
  | group f inner ih => exact GroupedIndex.refines f ih
  | zipNil => exact ZipIndex.refines_nil
  | zipCons head tail ihh iht => exact ZipIndex.refines_cons ihh iht

theorem not_clashes_of_noUnique {In : Type} (e : UnregisteredIndex In) (h : e.NoUnique) (S : Contents In)
    (u : Update In) : ¬e.Clashes S u := by
  induction e with
  | hashIndex => exact fun hc => hc.elim id id
  | btreeIndex lib => exact fun hc => hc.elim id id
  | uniqueHashIndex => exact h.elim
  | aggregate a => exact fun hc => hc.elim id id
  | premap f inner ih =>
    rintro (⟨w,_,hr⟩ | ⟨w,_,hd⟩)
    · exact ih h _ w (.inl hr)
    · exact ih h _ w (.inr hd)
  | @group In G _ _ f inner ih =>
    intro hc
    cases u with
    | add id v => exact ih h _ _ (.inl (hc.resolve_right not_false))
    | delete i v => exact hc.elim id id
    | update id v w =>
      simp only [Clashes,Rejects,Defers,GroupedIndex.Rejects,GroupedIndex.Defers] at hc
      split_ifs at hc with he
      · rcases hc with ⟨_,hr⟩ | hd
        · exact ih h _ _ (.inl hr)
        · exact ih h _ _ (.inr hd)
      · rcases hc with ⟨he',_⟩ | hr
        · exact he he'
        · exact ih h _ _ (.inl hr)
  | zipNil => exact fun hc => hc.elim id id
  | zipCons head tail ihh iht =>
    rintro ((hr | hr) | (hd | hd))
    · exact ihh h.1 S u (.inl hr)
    · exact iht h.2 S u (.inl hr)
    · exact ihh h.1 S u (.inr hd)
    · exact iht h.2 S u (.inr hd)

end UnregisteredIndex

end ComposableIndexes
