import ComposableIndexes.Model.SimpleTypes

namespace ComposableIndexes

inductive Update (T : Type) where
  | add (id : Id) (value : T)
  | update (id : Id) (oldValue newValue : T)
  | delete (id : Id) (oldValue : T)
  deriving DecidableEq

def Update.id {T : Type} : Update T → Id
  | .add id _ => id
  | .update id _ _ => id
  | .delete id _ => id

def filterMapUpdate {A B : Type} (f : A → Option B) : Update A → Option (Update B)
  | .add id value =>
      match f value with
      | none => none
      | some i => some (.add id i)
  | .update id oldValue newValue =>
      match f oldValue, f newValue with
      | none, none => none
      | none, some new => some (.add id new)
      | some old, none => some (.delete id old)
      | some old, some new => some (.update id old new)
  | .delete id oldValue =>
      match f oldValue with
      | none => none
      | some old => some (.delete id old)

section

variable {A B C : Type}

theorem filterMapUpdate_id {f : A → Option B} {u : Update A} {w : Update B}
    (h : filterMapUpdate f u = some w) : w.id = u.id := by
  cases u <;> simp only [filterMapUpdate] at h <;> split at h <;> cases h <;> rfl

theorem filterMapUpdate_bind (f : A → Option B) (g : B → Option C) (u : Update A) :
    (filterMapUpdate f u).bind (filterMapUpdate g) = filterMapUpdate (fun a => (f a).bind g) u := by
  cases u with
  | add id v => cases hv : f v <;> simp [filterMapUpdate,hv]
  | update id v w =>
    cases hv : f v <;> cases hw : f w <;> simp only [filterMapUpdate,hv,hw,Option.bind_none,Option.bind_some]
    all_goals split <;> simp_all
  | delete id v => cases hv : f v <;> simp [filterMapUpdate,hv]

theorem filterMapUpdate_some (u : Update A) : filterMapUpdate some u = some u := by
  cases u <;> rfl

end

end ComposableIndexes
