import ComposableIndexes.Abstract.Queries
import ComposableIndexes.Abstract.Runs

namespace ComposableIndexes

namespace Collection

variable {T G : Type} [JsValue T] [DecidableEq G] [JsKey G] {c d : Collection T} {f : T → G}

def HoldsGroup (d c : Collection T) (f : T → G) (g : G) : Prop := ∀ p, p ∈ d.toList ↔ p ∈ c.toList ∧ f p.2 = g

omit [JsValue T] [JsKey G] in
theorem HoldsGroup.contents_eq {g : G} (h : d.HoldsGroup c f g) :
    d.contents = c.contents.filterMap (GroupedIndex.part f g) := by
  funext i
  ext v
  have hu : (Id.fromLong ⟨i,true⟩).Unsigned := rfl
  have hp := h (Id.fromLong ⟨i,true⟩,v)
  rw [mem_toList,mem_toList,and_iff_right hu,and_iff_right hu] at hp
  rw [GroupedIndex.filterMap_part]
  exact hp

def setAll (store : IdMap T) : List (Id × T) → IdMap T
  | [] => store
  | (id,v) :: rest => setAll (store.set id v) rest

omit [JsValue T] in
theorem find_setAll (store : IdMap T) (items : List (Id × T)) :
    (setAll store items).find = RegisteredIndex.load store.find items := by
  induction items generalizing store with
  | nil => rfl
  | cons p rest ih =>
    obtain ⟨id,v⟩ := p
    have hs : (store.set id v).find = PartialMap.set store.find id.bits v := by
      funext i
      rw [IdMap.find_set,PartialMap.set_apply]
    rw [setAll,ih,hs,RegisteredIndex.load]

omit [JsValue T] [JsKey G] in
theorem exists_holdsGroup (c : Collection T) (f : T → G) (g : G) : ∃ d : Collection T, d.HoldsGroup c f g := by
  let items := c.toList.filter (fun p => f p.2 = g)
  have hsub : items.Sublist c.toList := List.filter_sublist
  have hsep : RegisteredIndex.Separate PartialMap.empty items :=
    ⟨c.separate_toList.1.sublist (hsub.map _),by simp⟩
  refine ⟨⟨c.last,setAll IdMap.new items,[]⟩,?_⟩
  rintro ⟨id,v⟩
  have hnew : (IdMap.new : IdMap T).find = PartialMap.empty := rfl
  rw [mem_toList,contents,find_setAll,hnew,RegisteredIndex.load_eq_some hsep]
  simp only [PartialMap.empty_apply,reduceCtorEq,false_or,items,List.mem_filter,decide_eq_true_eq]
  constructor
  · rintro ⟨hu,id',hb,hmem,hg⟩
    have hid := Id.eq_of_bits (mem_toList.mp hmem).1 hu hb
    rw [hid] at hmem
    exact ⟨hmem,hg⟩
  · rintro ⟨hmem,hg⟩
    exact ⟨(mem_toList.mp hmem).1,id,rfl,hmem,hg⟩

theorem group_is_exact_partition (h : Reached Call.exec Call.Ordinary new c) {inner : UnregisteredIndex T}
    {s : GroupedIndex.State G inner.State} {log : List (Update T)}
    (hix : (⟨.group f inner,s,log⟩ : RegisteredIndex T) ∈ c.indexes) (hl : inner.Lawful) (g : G) :
    (s.get g = none → ∀ p ∈ c.toList, f p.2 ≠ g) ∧ (∃ d : Collection T, d.HoldsGroup c f g) ∧
    ∀ st, s.get g = some st → ∀ d : Collection T, d.HoldsGroup c f g →
      ∃ s' log' d', registerIndex inner d = .returned ⟨inner,s',log'⟩ d' ∧
        ∀ {R : Type} (q : Query T inner R), q.Agree c.context d'.context st s' := by
  have hc := ordinary_consistent h
  have hs : GroupedIndex.Holds f (inner.Holds Id.Unsigned) c.contents s := (hc.tracks _ hix).holds
  refine ⟨?_,exists_holdsGroup c f g,?_⟩
  · rintro hn ⟨id,v⟩ hp rfl
    have hsome := hs.present id.bits v (mem_toList.mp hp).2
    rw [hn] at hsome
    cases hsome
  · intro st hst d hd
    have hS := hd.contents_eq
    have hst' : inner.Holds Id.Unsigned d.contents st := by
      rw [hS]
      exact hs.inner g st hst
    obtain ⟨s',log',hr,ht⟩ := registerIndex_returned (fun _ hid => hid) hst'
    refine ⟨s',log',_,hr,?_⟩
    intro R q
    refine q.agree_of_holds hl hst' ht.holds ?_
    intro id hid
    obtain ⟨v,hv⟩ := Option.isSome_iff_exists.mp hid
    have hcv : c.contents id.bits = some v := by
      rw [hS,GroupedIndex.filterMap_part] at hv
      exact hv.1
    have hdef := hc.defined id.bits v hcv
    exact (get_of_contents hcv hdef).trans (get_of_contents hv hdef).symm

def parity (n : ℕ) : ℕ := n % 2

def byParity (inner : UnregisteredIndex ℕ) : UnregisteredIndex ℕ := .group parity inner

def teamCalls : List (Call ℕ) :=
  [.registerIndex (byParity .hashIndex),.add 5,.add 6,.set (Id.fromLong ⟨1,true⟩) 8]

def teams : Collection ℕ := (Procedure.play Call.exec teamCalls new).2

theorem teams_reached : Reached Call.exec Call.Ordinary new teams :=
  Procedure.reached_play teamCalls .start (by decide)

theorem left_group_is_empty : ∃ (s : GroupedIndex.State ℕ (HashIndex.State ℕ)) (log : List (Update ℕ)),
    (⟨byParity .hashIndex,s,log⟩ : RegisteredIndex ℕ) ∈ teams.indexes ∧
    ∃ st : HashIndex.State ℕ, s.get 1 = some st ∧ ∀ d : Collection ℕ, d.HoldsGroup teams parity 1 →
      ∃ s' log' d', registerIndex .hashIndex d = .returned ⟨.hashIndex,s',log'⟩ d' ∧
        ∀ {R : Type} (q : Query ℕ (.hashIndex : UnregisteredIndex ℕ) R), q.Agree teams.context d'.context st s' :=
  ⟨_,_,List.mem_singleton.mpr rfl,_,rfl,
    (group_is_exact_partition teams_reached (List.mem_singleton.mpr rfl) trivial 1).2.2 _ rfl⟩

def additions : FoldArgs ℕ ℕ ℕ := ⟨0,fun s _ => s + 1,fun s _ _ => s,fun s _ => s,fun s => s⟩

def additionCalls : List (Call ℕ) :=
  [.registerIndex (byParity (.foldIndex additions)),.add 1,.set (Id.fromLong ⟨1,true⟩) 2]

def added : Collection ℕ := (Procedure.play Call.exec additionCalls new).2

def signedGroupCalls : List (Call ℕ) :=
  [.registerIndex (byParity .uniqueHashIndex),.set (Id.fromLong ⟨BitVec.allOnes 64,false⟩) 5]

def signedGroup : Collection ℕ := (Procedure.play Call.exec signedGroupCalls new).2

theorem group_answers_differ_from_rebuild :
    (Procedure.Accepted Call.exec Call.Ordinary additionCalls new ∧ (new : Collection ℕ).HoldsGroup added parity 1 ∧
      ∃ (s : GroupedIndex.State ℕ ℕ) (log : List (Update ℕ)) (st : ℕ),
        (⟨byParity (.foldIndex additions),s,log⟩ : RegisteredIndex ℕ) ∈ added.indexes ∧
        s.get 1 = some st ∧ ∃ (s' : ℕ) (log' : List (Update ℕ)) (d' : Collection ℕ),
          registerIndex (.foldIndex additions) new = .returned ⟨.foldIndex additions,s',log'⟩ d' ∧
          additions.result st ≠ additions.result s') ∧
    (Procedure.Accepted Call.exec (fun c call => call.DefinedValues ∧ call.BelowTop c) signedGroupCalls new ∧
      signedGroup.HoldsGroup signedGroup parity 1 ∧
      ∃ (s : GroupedIndex.State ℕ (UniqueHashIndex.State ℕ)) (log : List (Update ℕ)) (st : UniqueHashIndex.State ℕ),
        (⟨byParity .uniqueHashIndex,s,log⟩ : RegisteredIndex ℕ) ∈ signedGroup.indexes ∧
        s.get 1 = some st ∧ ∃ (s' : UniqueHashIndex.State ℕ) (log' : List (Update ℕ)) (d' : Collection ℕ),
          registerIndex .uniqueHashIndex signedGroup = .returned ⟨.uniqueHashIndex,s',log'⟩ d' ∧
          UniqueHashIndex.eq signedGroup.context st 5 ≠ UniqueHashIndex.eq d'.context s' 5) := by
  have hnone : (new : Collection ℕ).HoldsGroup added parity 1 := by
    have he : added.toList = [(Id.fromLong ⟨1,true⟩,2)] := rfl
    have hn : (new : Collection ℕ).toList = [] := rfl
    intro p
    rw [he,hn,List.mem_singleton]
    refine iff_of_false List.not_mem_nil ?_
    rintro ⟨rfl,hg⟩
    cases hg
  have hall : signedGroup.HoldsGroup signedGroup parity 1 := by
    have he : signedGroup.toList = [(Id.fromLong ⟨BitVec.allOnes 64,true⟩,5)] := rfl
    intro p
    rw [he,List.mem_singleton]
    refine (and_iff_left_of_imp ?_).symm
    rintro rfl
    rfl
  exact ⟨⟨by decide,hnone,_,_,_,List.mem_singleton.mpr rfl,rfl,_,_,_,rfl,by decide⟩,
    by decide,hall,_,_,_,List.mem_singleton.mpr rfl,rfl,_,_,_,rfl,by decide⟩

end Collection

end ComposableIndexes
