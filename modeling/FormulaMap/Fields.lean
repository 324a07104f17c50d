/-
Ordered fields: values under keys, in the order in which the keys were first
written, each key once.
-/

namespace FormulaMap

abbrev Fields (β : Type) := List (String × β)

namespace Fields

variable {β : Type}

/-- Sets a field: a new key goes to the end, a known one keeps its place. -/
def put (k : String) (v : β) : Fields β → Fields β
  | [] => [(k, v)]
  | (k', v') :: fs => if k' = k then (k, v) :: fs else (k', v') :: put k v fs

def get? (k : String) (fs : Fields β) : Option β :=
  (fs.find? fun f => f.1 == k).map (·.2)

def has (k : String) (fs : Fields β) : Bool := (get? k fs).isSome

theorem get?_cons (k k' : String) (v : β) (fs : Fields β) :
    get? k ((k', v) :: fs) = if k' == k then some v else get? k fs := by
  rw [get?, get?, List.find?_cons]
  cases k' == k <;> rfl

theorem get?_append (k : String) (fs gs : Fields β) :
    get? k (fs ++ gs) = (get? k fs).or (get? k gs) := by
  rw [get?, get?, get?, List.find?_append, Option.map_or]

theorem get?_put_self (k : String) (v : β) (fs : Fields β) : get? k (put k v fs) = some v := by
  induction fs with
  | nil => simp [put, get?]
  | cons f fs ih =>
    obtain ⟨k', v'⟩ := f
    by_cases h : k' = k
    · simp [put, get?, h]
    · simpa [put, get?, h] using ih

end Fields
end FormulaMap
