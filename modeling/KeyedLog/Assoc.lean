/-!
# Association lists

Finite maps as lists of pairs in the order of first insertion.
-/
namespace KeyedLog.Assoc

variable {κ ν : Type} [DecidableEq κ]

def get? (k : κ) : List (κ × ν) → Option ν
  | [] => none
  | (k', v) :: rest => if k = k' then some v else get? k rest

/-- Bind a key: in place if it is bound already, else after all others. -/
def put (k : κ) (v : ν) : List (κ × ν) → List (κ × ν)
  | [] => [(k, v)]
  | (k', v') :: rest => if k = k' then (k, v) :: rest else (k', v') :: put k v rest

def erase (k : κ) (pairs : List (κ × ν)) : List (κ × ν) :=
  pairs.filter fun (k', _) => k' ≠ k

@[simp] theorem get?_put_self (k : κ) (v : ν) (pairs : List (κ × ν)) :
    get? k (put k v pairs) = some v := by
  induction pairs with
  | nil => simp [put, get?]
  | cons p rest ih => by_cases h : k = p.1 <;> simp [put, get?, h, ih]

theorem get?_put_of_ne {k j : κ} (h : j ≠ k) (v : ν) (pairs : List (κ × ν)) :
    get? j (put k v pairs) = get? j pairs := by
  induction pairs with
  | nil => simp [put, get?, h]
  | cons p rest ih =>
    by_cases hk : k = p.1
    · subst hk
      simp [put, get?, h]
    · simp [put, hk, get?, ih]

@[simp] theorem get?_erase_self (k : κ) (pairs : List (κ × ν)) :
    get? k (erase k pairs) = none := by
  induction pairs with
  | nil => rfl
  | cons p rest ih => by_cases h : p.1 = k <;> simp_all [erase, get?, eq_comm]

theorem get?_erase_of_ne {k j : κ} (h : j ≠ k) (pairs : List (κ × ν)) :
    get? j (erase k pairs) = get? j pairs := by
  induction pairs with
  | nil => rfl
  | cons p rest ih => by_cases hk : p.1 = k <;> simp_all [erase, get?]

end KeyedLog.Assoc
