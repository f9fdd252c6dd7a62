import ComposableIndexes.Properties.Failures

namespace ComposableIndexes

namespace Collection

open Procedure (Preserves)

variable {T Ret : Type} [JsValue T] {P : Id → Prop} {c c' : Collection T} {id : Id}

def DefinedStore (c : Collection T) : Prop := ∀ i v, c.contents i = some v → JsValue.Defined v

theorem DefinedStore.of_store (h : c.DefinedStore) (hs : c'.store = c.store) : c'.DefinedStore := by
  rwa [DefinedStore,contents,hs]

theorem DefinedStore.of_set (h : c.DefinedStore) {v : T} (hv : JsValue.Defined v)
    (hs : c'.store = c.store.set id v) : c'.DefinedStore := by
  rw [DefinedStore,contents,hs,find_set_eq]
  exact defined_set h hv

theorem setUpdate_validAt (hd : c.DefinedStore) (id : Id) (v : T) : (c.setUpdate id v).ValidAt c.contents := by
  have hbare : Consistent (fun _ => True) { c with indexes := [] } := ⟨hd,by simp⟩
  exact setUpdate_valid hbare id v

theorem preserves_definedStore_exec {call : Call T} (hd : call.DefinedValues) : Preserves DefinedStore call.exec := by
  refine preserves_exec ?_ ?_ ?_ ?_ hd
  · intro e c hc
    unfold registerIndex
    split
    · exact hc
    · exact hc.of_store rfl
  · intro v hv c hc
    exact hc.of_set hv (add_store v c)
  · intro id v hv c hc
    exact hc.of_set hv (set_store id v c)
  · intro id c hc i v hv
    rw [delete_contents hc] at hv
    exact hc i v (PartialMap.sub_erase _ _ i v hv)

theorem visited_definedStore (h : Visited Call.exec (fun _ call => call.DefinedValues) new c) : c.DefinedStore :=
  h.invariant (by simp [DefinedStore,contents,new]) (fun c _ hc hd => preserves_definedStore_exec hd c hc)

def altered (S : Contents T) (i : BitVec 64) (post : Option T) : Contents T :=
  if JsValue.truthyOption post then Function.update S i post
  else if JsValue.truthyOption (S i) then S.erase i else S

theorem putBack_contents {r : Option T × Ret} {ret : Ret} (h : putBack id r c = .returned ret c') :
    ret = r.2 ∧ c'.contents = if JsValue.truthyOption r.1 then Function.update c.contents id.bits r.1 else c.contents := by
  obtain ⟨post,ret'⟩ := r
  cases post with
  | none =>
    cases h
    exact ⟨rfl,rfl⟩
  | some v =>
    unfold putBack at h
    cases hv : JsValue.truthy v with
    | false =>
      simp only [hv] at h
      cases h
      simp [JsValue.truthyOption,hv]
    | true =>
      simp only [hv,if_true,Procedure.bind_apply] at h
      have hst := set_store id v c
      cases hs : set id v c with
      | thrown e c₁ =>
        rw [hs] at h
        cases h
      | returned a c₁ =>
        rw [hs] at h hst
        cases h
        have hc : c'.store = c.store.set id v := hst
        simp only [JsValue.truthyOption,hv,if_true,true_and]
        rw [contents,hc,find_set_eq,PartialMap.set]

theorem alter_contents (hd : c.DefinedStore) {f : Option T → Option T × Ret} {ret : Ret}
    (h : alter id f c = .returned ret c') :
    ret = (f (c.get id)).2 ∧ c'.contents = altered c.contents id.bits (f (c.get id)).1 := by
  have hget := get_eq hd id
  cases ht : JsValue.truthyOption (c.get id) with
  | false =>
    rw [alter_keep f ht] at h
    obtain ⟨hr,hS⟩ := putBack_contents h
    refine ⟨hr,?_⟩
    rw [hget] at ht
    simpa [altered,ht] using hS
  | true =>
    have hdel := delete_contents hd id
    cases ho : delete id c with
    | thrown e c₁ =>
      rw [alter_thrown f ht ho] at h
      cases h
    | returned old c₁ =>
      rw [alter_drop f ht ho] at h
      rw [ho] at hdel
      obtain ⟨hr,hS⟩ := putBack_contents h
      refine ⟨hr,?_⟩
      have hc₁ : c₁.contents = c.contents.erase id.bits := hdel
      rw [hget] at ht
      rw [hS,hc₁,altered,ht,if_pos rfl,PartialMap.erase]
      simp

theorem orUndefined_of_truthy {post : Option T} (h : JsValue.truthyOption post = true) :
    post.bind JsValue.orUndefined = post := by
  cases post with
  | none => rfl
  | some v => exact JsValue.orUndefined_of_defined (JsValue.defined_of_truthy v h)

theorem altered_self (S : Contents T) (i : BitVec 64) (post : Option T) : altered S i post i =
    if JsValue.truthyOption post then post else if JsValue.truthyOption (S i) then none else S i := by
  unfold altered
  split_ifs <;> simp

theorem altered_of_ne (S : Contents T) {i j : BitVec 64} (h : j ≠ i) (post : Option T) : altered S i post j = S j := by
  unfold altered
  split_ifs <;> simp [h,PartialMap.erase_apply]

theorem alter_definedStore (hd : c.DefinedStore) {f : Option T → Option T × Ret} {ret : Ret}
    (h : alter id f c = .returned ret c') : c'.DefinedStore := by
  have hv : (Call.alter id f).DefinedValues := trivial
  have hp := preserves_definedStore_exec hv c hd
  rw [Call.exec,Procedure.bind_pure_state,h] at hp
  exact hp

structure AltersTo (c c' : Collection T) (id : Id) (value : Option T) : Prop where
  here : c'.get id = value
  elsewhere : ∀ id' : Id, id'.bits ≠ id.bits → c'.get id' = c.get id'

theorem altersTo_iff (hd : c.DefinedStore) {f : Option T → Option T × Ret} {ret : Ret}
    (h : alter id f c = .returned ret c') (value : Option T) : c.AltersTo c' id value ↔
      (if JsValue.truthyOption (f (c.get id)).1 then (f (c.get id)).1
        else if JsValue.truthyOption (c.get id) then none else c.get id) = value := by
  obtain ⟨_,hS⟩ := alter_contents hd h
  have hd' := alter_definedStore hd h
  have hhere : c'.get id = if JsValue.truthyOption (f (c.get id)).1 then (f (c.get id)).1
      else if JsValue.truthyOption (c.get id) then none else c.get id := by
    rw [get_eq hd',hS,altered_self,← get_eq hd]
  rw [← hhere]
  constructor
  · exact fun ha => ha.here
  · refine fun ha => ⟨ha,?_⟩
    intro id' hne
    rw [get_eq hd',hS,altered_of_ne _ hne,get_eq hd]

theorem alter_correct_iff (hd : c.DefinedStore) {f : Option T → Option T × Ret} {ret : Ret}
    (h : alter id f c = .returned ret c') : c.AltersTo c' id ((f (c.get id)).1.bind JsValue.orUndefined) ↔
      JsValue.truthyOption (f (c.get id)).1 = true ∨
      ((f (c.get id)).1.bind JsValue.orUndefined = none ∧ JsValue.truthyOption (c.get id) = true) ∨
      ((f (c.get id)).1.bind JsValue.orUndefined = c.get id ∧ JsValue.truthyOption (c.get id) = false) := by
  rw [altersTo_iff hd h]
  cases hp : JsValue.truthyOption (f (c.get id)).1 with
  | true => simp [orUndefined_of_truthy hp]
  | false =>
    rw [eq_comm]
    cases JsValue.truthyOption (c.get id) <;> simp

theorem adjust_absent (g : T → T) (h : c.get id = none) : adjust id g c = .returned () c := by
  have ht : JsValue.truthyOption (c.get id) = false := by rw [h]; rfl
  rw [adjust,alter_keep _ ht,h]
  rfl

theorem adjust_correct_iff (hd : c.DefinedStore) {g : T → T} {v : T} (hv : c.get id = some v)
    (h : adjust id g c = .returned () c') : c.AltersTo c' id (some (g v)) ↔
      (JsValue.truthy v = true ∧ JsValue.truthy (g v) = true) ∨ (JsValue.truthy v = false ∧ g v = v) := by
  rw [altersTo_iff hd h,hv]
  cases ht : JsValue.truthy v with
  | true =>
    cases hgt : JsValue.truthy (g v) <;> simp [JsValue.truthyOption,ht,hgt]
  | false =>
    rw [eq_comm]
    simp [JsValue.truthyOption,ht]

theorem alter_adjust_correct_iff (h : Visited Call.exec (fun _ call => call.DefinedValues) new c) (id : Id) :
    (∀ {Ret : Type} (f : Option T → Option T × Ret) (ret : Ret) (c' : Collection T), alter id f c = .returned ret c' →
      ((ret = (f (c.get id)).2 ∧ c.AltersTo c' id ((f (c.get id)).1.bind JsValue.orUndefined)) ↔
        JsValue.truthyOption (f (c.get id)).1 = true ∨
        ((f (c.get id)).1.bind JsValue.orUndefined = none ∧ JsValue.truthyOption (c.get id) = true) ∨
        ((f (c.get id)).1.bind JsValue.orUndefined = c.get id ∧ JsValue.truthyOption (c.get id) = false))) ∧
    ∀ (g : T → T) (c' : Collection T), adjust id g c = .returned () c' →
      (((∀ v, c.get id = some v → c.AltersTo c' id (some (g v))) ∧ (c.get id = none → c' = c)) ↔
        ∀ v, c.get id = some v →
          (JsValue.truthy v = true ∧ JsValue.truthy (g v) = true) ∨ (JsValue.truthy v = false ∧ g v = v)) := by
  have hd := visited_definedStore h
  refine ⟨?_,?_⟩
  · intro Ret f ret c' hr
    rw [and_iff_right (alter_contents hd hr).1]
    exact alter_correct_iff hd hr
  · intro g c' hr
    have habsent : c.get id = none → c' = c := by
      intro hn
      rw [adjust_absent g hn] at hr
      cases hr
      rfl
    rw [and_iff_left habsent]
    exact forall_congr' fun v => forall_congr' fun hv => adjust_correct_iff hd hv hr

def storedFive : Collection ℕ := (Procedure.play Call.exec [.add 5] new).2

theorem storedFive_visited : Visited Call.exec (fun _ call => call.DefinedValues) new storedFive := by
  have h : Reached Call.exec (fun _ call => call.DefinedValues) new storedFive :=
    Procedure.reached_play [Call.add 5] .start (by decide)
  exact h.visited

def replaceBy (n : ℕ) (pre : Option ℕ) : Option ℕ × Option ℕ := (some n,pre)

theorem altered_to_seven : ∃ c', alter (Id.fromLong ⟨1,true⟩) (replaceBy 7) storedFive = .returned (some 5) c' ∧
    storedFive.AltersTo c' (Id.fromLong ⟨1,true⟩) (some 7) :=
  ⟨_,rfl,(((alter_adjust_correct_iff storedFive_visited (Id.fromLong ⟨1,true⟩)).1 (replaceBy 7) _ _ rfl).mpr (.inl rfl)).2⟩

theorem altered_to_zero_is_lost : Visited Call.exec (fun _ call => call.DefinedValues) new storedFive ∧
    ∃ ret c', alter (Id.fromLong ⟨1,true⟩) (replaceBy 0) storedFive = .returned ret c' ∧
      ¬storedFive.AltersTo c' (Id.fromLong ⟨1,true⟩) (some 0) := by
  refine ⟨storedFive_visited,_,_,rfl,?_⟩
  intro ha
  cases ha.here

section Throwing

variable {E : Type} {f : Option T → Except E (Option T × Ret)}

def putBackThrowing (E : Type) (id : Id) (r : Option T × Ret) : Procedure (Exception T ⊕ E) (Collection T) Ret :=
  match r.1 with
  | none => pure r.2
  | some v => do
      if JsValue.truthy v then
        Procedure.mapError Sum.inl (set id v)
      pure r.2

theorem putBackThrowing_eq (id : Id) (r : Option T × Ret) (c : Collection T) :
    putBackThrowing E id r c = (putBack id r c).mapError Sum.inl := by
  obtain ⟨post,ret⟩ := r
  cases post with
  | none => rfl
  | some v =>
    cases hv : JsValue.truthy v with
    | false =>
      simp only [putBackThrowing,putBack,hv]
      rfl
    | true =>
      simp only [putBackThrowing,putBack,hv,if_true,Procedure.bind_apply,Procedure.mapError]
      cases set id v c <;> rfl

theorem alterThrowing_keep {r : Option T × Ret} (ht : JsValue.truthyOption (c.get id) = false)
    (h : f (c.get id) = .ok r) : alterThrowing id f c = putBackThrowing E id r c := by
  rw [alterThrowing,Procedure.bind_returned (Procedure.read_apply _ c),if_neg (by simp [ht]),h]
  rfl

theorem alterThrowing_drop {r : Option T × Ret} (ht : JsValue.truthyOption (c.get id) = true)
    (h : f (c.get id) = .ok r) {old : Option T} (hd : delete id c = .returned old c') :
    alterThrowing id f c = putBackThrowing E id r c' := by
  rw [alterThrowing,Procedure.bind_returned (Procedure.read_apply _ c),if_pos ht,h]
  exact Procedure.bind_returned (Procedure.mapError_returned Sum.inl hd)

theorem alterThrowing_keep_error {e : E} (ht : JsValue.truthyOption (c.get id) = false)
    (h : f (c.get id) = .error e) : alterThrowing id f c = .thrown (.inr e) c := by
  rw [alterThrowing,Procedure.bind_returned (Procedure.read_apply _ c),if_neg (by simp [ht]),h]
  rfl

theorem alterThrowing_drop_error {e : E} (ht : JsValue.truthyOption (c.get id) = true)
    (h : f (c.get id) = .error e) {old : Option T} (hd : delete id c = .returned old c') :
    alterThrowing id f c = .thrown (.inr e) c' := by
  rw [alterThrowing,Procedure.bind_returned (Procedure.read_apply _ c),if_pos ht,h]
  exact Procedure.bind_returned (Procedure.mapError_returned Sum.inl hd)

theorem alterThrowing_ok {r : Option T × Ret} (h : f (c.get id) = .ok r) :
    alterThrowing id f c = (alter id (fun _ => r) c).mapError Sum.inl := by
  cases ht : JsValue.truthyOption (c.get id) with
  | false => rw [alterThrowing_keep ht h,alter_keep _ ht,putBackThrowing_eq]
  | true =>
    cases hd : delete id c with
    | returned old c₁ => rw [alterThrowing_drop ht h hd,alter_drop _ ht hd,putBackThrowing_eq]
    | thrown e c₁ =>
      rw [alterThrowing,Procedure.bind_returned (Procedure.read_apply _ c),if_pos ht,alter_thrown _ ht hd]
      exact Procedure.bind_thrown (Procedure.mapError_thrown Sum.inl hd)

theorem alterThrowing_total (f : Option T → Option T × Ret) :
    alterThrowing id (fun pre => (.ok (f pre) : Except E (Option T × Ret))) = Procedure.mapError Sum.inl (alter id f) := by
  funext c
  rw [alterThrowing_ok rfl]
  cases ht : JsValue.truthyOption (c.get id) with
  | false => rw [Procedure.mapError,alter_keep _ ht,alter_keep f ht]
  | true =>
    cases hd : delete id c with
    | returned old c₁ => rw [Procedure.mapError,alter_drop _ ht hd,alter_drop f ht hd]
    | thrown e c₁ => rw [Procedure.mapError,alter_thrown _ ht hd,alter_thrown f ht hd]

theorem putBack_thrown_written {r : Option T × Ret} {e : Exception T} (h : putBack id r c = .thrown e c') :
    ∃ v, r.1 = some v ∧ JsValue.truthy v = true ∧ c'.store = c.store.set id v := by
  obtain ⟨post,ret⟩ := r
  cases post with
  | none => cases h
  | some v =>
    unfold putBack at h
    cases hv : JsValue.truthy v with
    | false =>
      simp only [hv] at h
      cases h
    | true =>
      simp only [hv,if_true,Procedure.bind_apply] at h
      have hst := set_store id v c
      cases hs : set id v c with
      | returned a c₁ =>
        rw [hs] at h
        cases h
      | thrown x c₁ =>
        rw [hs] at h hst
        cases h
        exact ⟨v,rfl,hv,hst⟩

theorem alter_thrown_written (hc : c.Consistent P) (hP : P id) {f : Option T → Option T × Ret} {e : Exception T}
    (h : alter id f c = .thrown e c') : ∃ v, (f (c.get id)).1 = some v ∧ JsValue.truthy v = true ∧ c'.get id = some v := by
  have written {c c' : Collection T} {r : Option T × Ret} (hp : putBack id r c = .thrown e c') :
      ∃ v, r.1 = some v ∧ JsValue.truthy v = true ∧ c'.get id = some v := by
    obtain ⟨v,hr,hv,hs⟩ := putBack_thrown_written hp
    exact ⟨v,hr,hv,get_written c (JsValue.defined_of_truthy v hv) hs⟩
  cases ht : JsValue.truthyOption (c.get id) with
  | false =>
    rw [alter_keep f ht] at h
    exact written h
  | true =>
    obtain ⟨c₁,hd,_⟩ := delete_returned hc hP
    rw [alter_drop f ht hd] at h
    exact written h

theorem stored_not_clash (hc : c.Consistent P) {v : T} (hv : c.contents id.bits = some v) :
    ¬c.Clash (c.contents.erase id.bits) (.add id v) := by
  rintro ⟨ix,hix,hr | hd⟩
  · exact (ix.expr.refines T P).accepts_stored _ _ _ _ _ (hc.tracks ix hix).holds (PartialMap.sub_erase _ _)
      (PartialMap.erase_self _ _) hv hr
  · exact (ix.expr.refines T P).not_defers_add _ _ _ hd

theorem alterClash_changes (hc : c.Consistent P) {v : T} (hv : JsValue.truthy v = true) (h : c.AlterClash id (some v)) :
    c.get id ≠ some v := by
  intro hg
  have ht : JsValue.truthyOption (c.get id) = true := by
    rw [hg]
    exact hv
  rw [AlterClash,if_pos ht] at h
  obtain ⟨w,hw,_,hcl⟩ := h
  cases hw
  exact stored_not_clash hc ((get_eq hc.defined id).symm.trans hg) hcl

def KeepsOnError (c : Collection T) (x : Procedure (Exception T ⊕ E) (Collection T) Ret) : Prop :=
  ∀ e c', x c = .thrown e c' → SameAnswers c c'

theorem keepsOnError_error_iff (hc : c.Consistent P) (hP : P id) {e : E} (h : f (c.get id) = .error e) :
    c.KeepsOnError (alterThrowing id f) ↔ JsValue.truthyOption (c.get id) = false := by
  cases ht : JsValue.truthyOption (c.get id) with
  | false =>
    refine iff_of_true ?_ rfl
    intro x c' hr
    rw [alterThrowing_keep_error ht h] at hr
    cases hr
    exact sameAnswers_of_eq rfl rfl
  | true =>
    obtain ⟨c₁,hd,hc₁,hS,_⟩ := delete_returned hc hP
    refine iff_of_false ?_ (by simp)
    intro hk
    have hg := (hk _ c₁ (alterThrowing_drop_error ht h hd)).get id
    have hn : c₁.get id = none := by
      rw [get_eq hc₁.defined,hS,PartialMap.erase_self]
    rw [hg,hn] at ht
    cases ht

theorem keepsOnError_ok_iff (hc : c.Consistent P) (hP : P id) {r : Option T × Ret} (h : f (c.get id) = .ok r) :
    c.KeepsOnError (alterThrowing id f) ↔ ¬c.AlterClash id r.1 := by
  have ha := alterThrowing_ok h
  rcases alter_cases hc hP (fun _ => r) with ⟨hn,c',hr,_⟩ | ⟨hn,c',hr⟩
  · refine iff_of_true ?_ hn
    intro x c₁ ht
    rw [ha,hr] at ht
    cases ht
  · refine iff_of_false ?_ (not_not_intro hn)
    intro hk
    obtain ⟨v,hv,htv,hw⟩ := alter_thrown_written hc hP hr
    have hg := (hk _ c' (by rw [ha,hr]; rfl)).get id
    rw [hw] at hg
    rw [hv] at hn
    exact alterClash_changes hc htv hn hg

theorem adjustThrowing_iff (hc : c.Consistent P) (hP : P id) (g : T → Except E T) :
    c.KeepsOnError (adjustThrowing id g) ↔
      ∀ v, c.get id = some v → JsValue.truthy v = true → ∃ w, g v = .ok w ∧ ¬c.AlterClash id (some w) := by
  rw [adjustThrowing]
  have hidle (hf : adjustedThrowing g (c.get id) = .ok (none,())) :
      c.KeepsOnError (alterThrowing id (adjustedThrowing g)) := by
    refine (keepsOnError_ok_iff hc hP hf).mpr ?_
    unfold AlterClash PutBackClash
    split_ifs <;> simp
  cases hg : c.get id with
  | none => exact iff_of_true (hidle (by rw [hg]; rfl)) (by simp)
  | some v =>
    cases hv : JsValue.truthy v with
    | false => exact iff_of_true (hidle (by simp [hg,adjustedThrowing,hv])) (by simp [hv])
    | true =>
      cases hgv : g v with
      | error e =>
        have hf : adjustedThrowing g (c.get id) = .error e := by simp [hg,adjustedThrowing,hv,hgv,Except.map]
        have he := keepsOnError_error_iff hc hP hf
        simpa [hg,hv,hgv,JsValue.truthyOption] using he
      | ok w =>
        have hf : adjustedThrowing g (c.get id) = .ok (some w,()) := by simp [hg,adjustedThrowing,hv,hgv,Except.map]
        have he := keepsOnError_ok_iff hc hP hf
        simpa [hv,hgv] using he

theorem alter_adjust_atomic_iff {T : Type} [JsValue T] {c : Collection T} (h : Reached Call.exec Call.Proper new c)
    (id : Id) {E : Type} :
    (∀ {Ret : Type} (f : Option T → Except E (Option T × Ret)), c.KeepsOnError (alterThrowing id f) ↔
      (∀ e, f (c.get id) = .error e → JsValue.truthyOption (c.get id) = false) ∧
      ∀ post ret, f (c.get id) = .ok (post,ret) → ¬c.AlterClash id post) ∧
    ∀ g : T → Except E T, c.KeepsOnError (adjustThrowing id g) ↔
      ∀ v, c.get id = some v → JsValue.truthy v = true → ∃ w, g v = .ok w ∧ ¬c.AlterClash id (some w) := by
  have hc := proper_consistent h
  refine ⟨?_,adjustThrowing_iff hc trivial⟩
  intro Ret f
  cases hf : f (c.get id) with
  | error e => simpa using keepsOnError_error_iff hc trivial hf
  | ok r =>
    obtain ⟨post,ret⟩ := r
    simpa using keepsOnError_ok_iff hc trivial hf

theorem absent_item_kept_on_error : taken.KeepsOnError
    (alterThrowing (Id.fromLong ⟨2,true⟩) (fun _ => (.error () : Except Unit (Option ℕ × Unit)))) :=
  ((alter_adjust_atomic_iff taken_reached (Id.fromLong ⟨2,true⟩)).1 _).mpr ⟨fun _ _ => rfl,by simp⟩

theorem failed_alter_deletes_item : Reached Call.exec Call.Proper new taken ∧
    (∃ c', alterThrowing (Id.fromLong ⟨1,true⟩) (fun _ => (.error () : Except Unit (Option ℕ × Unit))) taken =
      .thrown (.inr ()) c' ∧ taken.toList ≠ c'.toList) ∧
    ∃ c', adjustThrowing (Id.fromLong ⟨1,true⟩) (fun _ => (.error () : Except Unit ℕ)) taken =
      .thrown (.inr ()) c' ∧ taken.toList ≠ c'.toList :=
  ⟨taken_reached,⟨_,rfl,by decide⟩,_,rfl,by decide⟩

end Throwing

end Collection

end ComposableIndexes
