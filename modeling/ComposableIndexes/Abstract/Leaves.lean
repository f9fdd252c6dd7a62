import ComposableIndexes.Abstract.Refinement
import ComposableIndexes.Library.Buckets
import ComposableIndexes.Model.AggregateIndex
import ComposableIndexes.Model.BTreeIndex

namespace ComposableIndexes

def never {In : Type} (_ : Contents In) (_ : Update In) : Prop := False

theorem refines_of_hook {In Out σ : Type} {holds : Contents In → σ → Prop} (P : Id → Prop)
    {ix : Index In Out σ} (hook : Update In → Hook Out σ)
    (hook_eq : ∀ ctx u s, ix.onUpdate ctx u s = .returned (hook u) s)
    (create : holds PartialMap.empty ix.create)
    (step : ∀ S s u, holds S s → u.ValidAt S → ∃ s', hook u s = .returned () s' ∧ holds (u.apply S) s') :
    Refines holds never never P ix where
  create := create
  onUpdate ctx S s u hs hu _ := by
    obtain ⟨s',hh,hs'⟩ := step S s u hs hu
    rw [hook_eq]
    exact .committed not_false not_false hs hh hs'
  rejects_delete _ _ _ := not_false
  defers_update _ _ h := h.elim
  accepts_stored _ _ _ _ _ _ _ _ _ := not_false
  keeps_same _ _ _ _ _ _ := not_false
  quiet ctx S s id v _ _ := by
    rw [hook_eq]
    rfl

section SetBuckets

variable {K : Type} {S : Contents K} {V : BitVec 64 → Set K} {sets sets' : K → Option IdSet} {id : Id} {k : K}

theorem look_insert (hk : sets' k = some (((sets k).getD IdSet.new).set id)) :
    (sets' k).map IdSet.toSet = some (insert id.bits (((sets k).map IdSet.toSet).getD ∅)) := by
  rw [hk]
  cases sets k <;> simp [IdSet.toSet_set]

theorem look_erase {set : IdSet} (hg : sets k = some set)
    (hk : sets' k = if (set.delete id).empty then none else some (set.delete id)) :
    (∀ X, (sets' k).map IdSet.toSet = some X → ∀ Y, (sets k).map IdSet.toSet = some Y → X = Y \ {id.bits} ∧ X.Nonempty) ∧
    ((sets' k).map IdSet.toSet = none → ∀ Y, (sets k).map IdSet.toSet = some Y → Y \ {id.bits} = ∅) := by
  by_cases he : (set.delete id).empty = true
  · rw [if_pos he] at hk
    refine ⟨?_,?_⟩
    · intro X hX
      simp [hk] at hX
    · intro _ Y hY
      simp only [hg,Option.map_some,Option.some.injEq] at hY
      rw [← hY,← IdSet.toSet_delete]
      exact (IdSet.empty_iff _).mp he
  · rw [if_neg he] at hk
    refine ⟨?_,?_⟩
    · intro X hX Y hY
      simp only [hk,hg,Option.map_some,Option.some.injEq] at hX hY
      rw [← hX,← hY,← IdSet.toSet_delete]
      exact ⟨rfl,Set.nonempty_iff_ne_empty.mpr (fun hc => he ((IdSet.empty_iff _).mpr hc))⟩
    · intro hX
      simp [hk] at hX

theorem buckets_add (h : Buckets S (fun k => (sets k).map IdSet.toSet)) (hi : S id.bits = none)
    (hk : sets' k = some (((sets k).getD IdSet.new).set id)) (hne : ∀ k', k' ≠ k → sets' k' = sets k') :
    Buckets (S.set id.bits k) (fun k => (sets' k).map IdSet.toSet) :=
  h.insert_point hi k (look_insert hk) (fun k' hk' => by rw [hne k' hk'])

theorem buckets_delete (h : Buckets S (fun k => (sets k).map IdSet.toSet)) (hi : S id.bits = some k) {set : IdSet}
    (hg : sets k = some set) (hk : sets' k = if (set.delete id).empty then none else some (set.delete id))
    (hne : ∀ k', k' ≠ k → sets' k' = sets k') :
    Buckets (S.erase id.bits) (fun k => (sets' k).map IdSet.toSet) := by
  obtain ⟨hmem,hnone⟩ := look_erase hg hk
  exact h.erase_point hi hmem hnone (fun k' hk' => by rw [hne k' hk'])

theorem cover_add (h : Cover V (fun k => (sets k).map IdSet.toSet))
    (hk : sets' k = some (((sets k).getD IdSet.new).set id)) (hne : ∀ k', k' ≠ k → sets' k' = sets k') :
    Cover (Function.update V id.bits (insert k (V id.bits))) (fun k => (sets' k).map IdSet.toSet) :=
  h.insert_point id.bits k (look_insert hk) (fun k' hk' => by rw [hne k' hk'])

theorem cover_delete (h : Cover V (fun k => (sets k).map IdSet.toSet)) (hi : k ∈ V id.bits) {set : IdSet}
    (hg : sets k = some set) (hk : sets' k = if (set.delete id).empty then none else some (set.delete id))
    (hne : ∀ k', k' ≠ k → sets' k' = sets k') :
    Cover (Function.update V id.bits (V id.bits \ {k})) (fun k => (sets' k).map IdSet.toSet) := by
  obtain ⟨hmem,hnone⟩ := look_erase hg hk
  exact h.erase_point hi hmem hnone (fun k' hk' => by rw [hne k' hk'])

end SetBuckets

namespace HashIndex

variable {K Out : Type} [DecidableEq K] {S : Contents K} {ix : State K} {id : Id} {k : K}

def Holds (S : Contents K) (ix : State K) : Prop := Buckets S (fun k => (ix.get k).map IdSet.toSet)

theorem get_add_self (id : Id) (k : K) (ix : State K) :
    (add id k ix).get k = some (((ix.get k).getD IdSet.new).set id) := by
  unfold add
  cases ix.get k <;> simp

theorem get_add_of_ne (id : Id) (ix : State K) {k' : K} (h : k' ≠ k) : (add id k ix).get k' = ix.get k' := by
  unfold add
  cases ix.get k <;> simp [OrderedMap.get_set,h]

theorem delete_spec (Out : Type) (id : Id) {set : IdSet} (hg : ix.get k = some set) :
    ∃ ix', (delete id k : Procedure (Exception Out) (State K) Unit) ix = .returned () ix' ∧
      ix'.get k = (if (set.delete id).empty then none else some (set.delete id)) ∧
      ∀ k', k' ≠ k → ix'.get k' = ix.get k' := by
  simp only [delete,hg]
  by_cases he : (set.delete id).empty = true
  · rw [if_pos he]
    exact ⟨_,rfl,by simp [OrderedMap.get_delete,he],fun k' hk => by simp [OrderedMap.get_delete,hk]⟩
  · rw [if_neg he]
    exact ⟨_,rfl,by simp [he],fun k' hk => by simp [OrderedMap.get_set,hk]⟩

theorem holds_add (h : Holds S ix) (hi : S id.bits = none) (k : K) : Holds (S.set id.bits k) (add id k ix) :=
  buckets_add h hi (get_add_self id k ix) (fun _ hk => get_add_of_ne id ix hk)

theorem delete_returned (Out : Type) (h : Holds S ix) (hi : S id.bits = some k) :
    ∃ ix', (delete id k : Procedure (Exception Out) (State K) Unit) ix = .returned () ix' ∧
      Holds (S.erase id.bits) ix' := by
  obtain ⟨X,hX,_⟩ := h.exists_bucket hi
  obtain ⟨set,hg,rfl⟩ := Option.map_eq_some_iff.mp hX
  obtain ⟨ix',hr,hk,hne⟩ := delete_spec Out id hg
  exact ⟨ix',hr,buckets_delete h hi hg hk hne⟩

theorem refines (P : Id → Prop) : Refines Holds never never P (index : Index K Out (State K)) := by
  refine refines_of_hook P _ (fun ctx u s => rfl) Buckets.empty ?_
  intro S ix u hs hu
  cases u with
  | add id v => exact ⟨_,rfl,holds_add hs hu v⟩
  | update id v w =>
    obtain ⟨ix',hd,hs'⟩ := delete_returned Out hs hu
    have ha := holds_add hs' (S.erase_self id.bits) w
    rw [PartialMap.erase_set] at ha
    exact ⟨_,Procedure.bind_returned hd,ha⟩
  | delete id v => exact delete_returned Out hs hu

end HashIndex

namespace BTreeIndex

variable {K Out : Type} [LinearOrder K] [JsKey K] {lib : SortedBTree K IdSet} {S : Contents K}
  {ix : lib.Tree} {id : Id} {k : K}

def Holds (lib : SortedBTree K IdSet) (S : Contents K) (ix : lib.Tree) : Prop :=
  Buckets S (fun k => (lib.get ix k).map IdSet.toSet)

omit [JsKey K] in
theorem get_add_self (id : Id) (k : K) (ix : lib.Tree) :
    lib.get (add lib id k ix) k = some (((lib.get ix k).getD IdSet.new).set id) := by
  unfold add
  cases lib.get ix k <;> simp [lib.get_set,IdSet.singleton]

omit [JsKey K] in
theorem get_add_of_ne (id : Id) (ix : lib.Tree) {k' : K} (h : k' ≠ k) :
    lib.get (add lib id k ix) k' = lib.get ix k' := by
  unfold add
  cases lib.get ix k <;> simp [lib.get_set,h]

omit [JsKey K] in
theorem get_delete_self (id : Id) {set : IdSet} (hg : lib.get ix k = some set) :
    lib.get (delete lib id k ix) k = if (set.delete id).empty then none else some (set.delete id) := by
  simp only [delete,hg]
  split_ifs <;> simp [lib.get_delete,lib.get_set]

omit [JsKey K] in
theorem get_delete_of_ne (id : Id) (ix : lib.Tree) {k' : K} (h : k' ≠ k) :
    lib.get (delete lib id k ix) k' = lib.get ix k' := by
  unfold delete
  cases lib.get ix k with
  | none => rfl
  | some set => simp only; split_ifs <;> simp [lib.get_delete,lib.get_set,h]

omit [JsKey K] in
theorem holds_add (h : Holds lib S ix) (hi : S id.bits = none) (k : K) :
    Holds lib (S.set id.bits k) (add lib id k ix) :=
  buckets_add h hi (get_add_self id k ix) (fun _ hk => get_add_of_ne id ix hk)

omit [JsKey K] in
theorem holds_delete (h : Holds lib S ix) (hi : S id.bits = some k) :
    Holds lib (S.erase id.bits) (delete lib id k ix) := by
  obtain ⟨X,hX,_⟩ := h.exists_bucket hi
  obtain ⟨set,hg,rfl⟩ := Option.map_eq_some_iff.mp hX
  exact buckets_delete h hi hg (get_delete_self id hg) (fun _ hk => get_delete_of_ne id ix hk)

theorem holds_update (h : Holds lib S ix) (hi : S id.bits = some k) (k' : K) :
    Holds lib (S.set id.bits k') (update lib id k k' ix) := by
  unfold update
  split_ifs with he
  · rwa [← eq_of_strictEq he,PartialMap.set_eq_self hi]
  · have ha := holds_add (holds_delete h hi) (S.erase_self id.bits) k'
    rwa [PartialMap.erase_set] at ha

omit [JsKey K] in
theorem holds_new : Holds lib PartialMap.empty lib.new := by
  have h : (fun k => (lib.get lib.new k).map IdSet.toSet) = fun _ => none := by
    funext k
    rw [lib.get_new]
    rfl
  rw [Holds,h]
  exact Buckets.empty

theorem refines (P : Id → Prop) : Refines (Holds lib) never never P (index lib : Index K Out lib.Tree) := by
  refine refines_of_hook P _ (fun ctx u s => rfl) holds_new ?_
  intro S ix u hs hu
  cases u with
  | add id v => exact ⟨_,rfl,holds_add hs hu v⟩
  | update id v w => exact ⟨_,rfl,holds_update hs hu w⟩
  | delete id v => exact ⟨_,rfl,holds_delete hs hu⟩

end BTreeIndex

namespace UniqueHashIndex

variable {K Out : Type} [DecidableEq K] {P : Id → Prop} {S : Contents K} {ix : State K} {id : Id} {k : K}

structure Holds (P : Id → Prop) (S : Contents K) (ix : State K) : Prop where
  holder : ∀ k i, (∃ id, ix.get k = some id ∧ id.bits = i) ↔ S i = some k
  ids : ∀ k id, ix.get k = some id → P id

theorem Holds.stored (h : Holds P S ix) (hid : ix.get k = some id) : S id.bits = some k :=
  (h.holder k id.bits).mp ⟨id,hid,rfl⟩

def Rejects (S : Contents K) : Update K → Prop
  | .add _ value => ∃ i, S i = some value
  | .update _ _ newValue => ∃ i, S i = some newValue
  | .delete _ _ => False

theorem has_iff (h : Holds P S ix) (k : K) : ix.has k = true ↔ ∃ i, S i = some k := by
  rw [OrderedMap.has_eq,Option.isSome_iff_exists]
  constructor
  · rintro ⟨id,hid⟩
    exact ⟨id.bits,h.stored hid⟩
  · rintro ⟨i,hi⟩
    obtain ⟨id,hid,_⟩ := (h.holder k i).mpr hi
    exact ⟨id,hid⟩

theorem holder_unique (h : Holds P S ix) {i j : BitVec 64} (hi : S i = some k) (hj : S j = some k) : i = j := by
  obtain ⟨a,ha,rfl⟩ := (h.holder k i).mpr hi
  obtain ⟨b,hb,rfl⟩ := (h.holder k j).mpr hj
  rw [ha] at hb
  cases hb
  rfl

theorem holds_add (h : Holds P S ix) (hi : S id.bits = none) (hk : ∀ i, S i ≠ some k) (hP : P id) :
    Holds P (S.set id.bits k) (add id k ix) := by
  refine ⟨?_,?_⟩
  · intro k' i
    rw [add,OrderedMap.get_set,PartialMap.set_apply]
    by_cases hkk : k' = k
    · subst hkk
      by_cases hii : i = id.bits
      · simp [hii]
      · simp [hii,Ne.symm hii,hk i]
    · rw [if_neg hkk,h.holder]
      by_cases hii : i = id.bits
      · simp [hii,hi,Ne.symm hkk]
      · simp [hii]
  · intro k' a ha
    rw [add,OrderedMap.get_set] at ha
    split_ifs at ha
    · cases ha
      exact hP
    · exact h.ids k' a ha

theorem holds_delete (h : Holds P S ix) (hi : S id.bits = some k) :
    Holds P (S.erase id.bits) (delete k ix) := by
  refine ⟨?_,?_⟩
  · intro k' i
    rw [delete,OrderedMap.get_delete,PartialMap.erase_apply]
    by_cases hkk : k' = k
    · subst hkk
      by_cases hii : i = id.bits
      · simp [hii]
      · have hn : S i ≠ some k' := fun hc => hii (holder_unique h hc hi)
        simp [hii,hn]
    · rw [if_neg hkk,h.holder]
      by_cases hii : i = id.bits
      · simp [hii,hi,Ne.symm hkk]
      · simp [hii]
  · intro k' a ha
    rw [delete,OrderedMap.get_delete] at ha
    split_ifs at ha
    exact h.ids k' a ha

theorem refines (P : Id → Prop) :
    Refines (Holds P) Rejects never P (index : Index K Out (State K)) where
  create := ⟨by simp [index],by simp [index]⟩
  onUpdate ctx S ix u hs hu hP := by
    cases u with
    | add id v =>
      simp only [index]
      split_ifs with hv
      · exact .rejected ((has_iff hs v).mp hv) hs
      · have hn : ¬∃ i, S i = some v := fun hc => hv ((has_iff hs v).mpr hc)
        exact .committed hn not_false hs rfl (holds_add hs hu (not_exists.mp hn) hP)
    | update id v w =>
      simp only [index]
      split_ifs with hw
      · exact .rejected ((has_iff hs w).mp hw) hs
      · have hn : ¬∃ i, S i = some w := fun hc => hw ((has_iff hs w).mpr hc)
        refine .committed hn not_false hs rfl ?_
        have hd := holds_delete hs hu
        have hn' : ∀ i, S.erase id.bits i ≠ some w := fun i hi => hn ⟨i,S.sub_erase id.bits i w hi⟩
        have ha := holds_add hd (S.erase_self id.bits) hn' hP
        rwa [PartialMap.erase_set] at ha
    | delete id v => exact .committed not_false not_false hs rfl (holds_delete hs hu)
  rejects_delete _ _ _ := not_false
  defers_update _ _ h := h.elim
  accepts_stored S R ix id v hs hR hid hv := by
    rintro ⟨i,hi⟩
    have he := holder_unique hs (hR i v hi) hv
    rw [he,hid] at hi
    cases hi
  keeps_same _ _ _ _ _ _ := not_false
  quiet ctx S ix id v _ _ := by
    simp only [index]
    split_ifs <;> rfl

end UniqueHashIndex

namespace FoldIndex

variable {In State Return Out : Type}

noncomputable def total (args : FoldArgs In State Return) (h : args.Lawful) (values : Multiset In) : State :=
  letI : RightCommutative args.add := ⟨fun s a b => h.add_comm s a b⟩
  values.foldl args.add args.init

theorem total_cons (args : FoldArgs In State Return) (h : args.Lawful) (a : In) (values : Multiset In) :
    total args h (a ::ₘ values) = args.add (total args h values) a := by
  let _ : RightCommutative args.add := ⟨fun s a b => h.add_comm s a b⟩
  exact Multiset.foldl_cons_last args.add args.init a values

def Holds (args : FoldArgs In State Return) (S : Contents In) (state : State) : Prop :=
  ∀ h : args.Lawful, state = total args h S.values

variable {args : FoldArgs In State Return} {S : Contents In} {state : State} {i : BitVec 64} {v : In}

theorem holds_add (hs : Holds args S state) (hi : S i = none) (v : In) :
    Holds args (S.set i v) (args.add state v) := by
  intro h
  rw [PartialMap.values_set_of_none hi,total_cons,hs h]

theorem holds_delete (hs : Holds args S state) (hi : S i = some v) :
    Holds args (S.erase i) (args.delete state v) := by
  intro h
  rw [hs h,PartialMap.values_of_erase hi,total_cons,h.delete_add]

theorem holds_update (hs : Holds args S state) (hi : S i = some v) (w : In) :
    Holds args (S.set i w) (args.update state v w) := by
  intro h
  have ha := holds_add (holds_delete hs hi) (S.erase_self i) w
  rw [PartialMap.erase_set] at ha
  rw [h.update_eq]
  exact ha h

theorem holds_init (args : FoldArgs In State Return) : Holds args PartialMap.empty args.init := by
  intro h
  rw [PartialMap.values_empty]
  rfl

theorem refines (P : Id → Prop) (args : FoldArgs In State Return) :
    Refines (Holds args) never never P (index args : Index In Out State) := by
  refine refines_of_hook P _ (fun ctx u s => rfl) (holds_init args) ?_
  intro S state u hs hu
  cases u with
  | add id v => exact ⟨_,rfl,holds_add hs hu v⟩
  | update id v w => exact ⟨_,rfl,holds_update hs hu w⟩
  | delete id v => exact ⟨_,rfl,holds_delete hs hu⟩

end FoldIndex

end ComposableIndexes
