import Mathlib.Data.Nat.Init

/-! Reference counts (`kref.h`), next to the number of holders that they stand for. -/
namespace Vessel

/-- `struct kref`, with how often its object has been released. -/
structure Kref where
  cnt : ℤ
  released : ℕ
  deriving DecidableEq

namespace Kref

/-- `kref_init`. -/
def init : Kref := ⟨1,0⟩

/-- `kref_get`, where its assertion holds. -/
def get (k : Kref) : Option Kref := if 0 < k.cnt then some { k with cnt := k.cnt+1 } else none

/-- The object is released, whatever the count is. -/
def release (k : Kref) : Kref := { k with released := k.released+1 }

/-- `kref_put` calls the release function. -/
def isLast (k : Kref) : Bool := k.cnt-1 = 0

/-- `kref_put`. -/
def put (k : Kref) : Kref :=
  let k' : Kref := { k with cnt := k.cnt-1 }
  if k.isLast then k'.release else k'

/-- There are `n` holders: the object lives while there are some, and was released once when
there are none. -/
inductive Counts (k : Kref) : ℕ → Prop
  | live {n : ℕ} (released : k.released = 0) (cnt : k.cnt = n+1) : Counts k (n+1)
  | ended (released : k.released = 1) : Counts k 0

variable {k k' : Kref} {n : ℕ}

theorem init_counts : init.Counts 1 := .live rfl rfl

theorem Counts.released_eq (h : k.Counts n) : k.released = if n = 0 then 1 else 0 := by
  cases h with
  | live released => rw [released,if_neg (Nat.succ_ne_zero _)]
  | ended released => rw [released,if_pos rfl]

theorem Counts.get (h : k.Counts n) (hn : 0 < n) (hk : k.get = some k') : k'.Counts (n+1) := by
  cases h with
  | ended => exact absurd hn (Nat.lt_irrefl 0)
  | live released cnt =>
    rw [Kref.get,if_pos (by omega)] at hk
    cases hk
    refine .live released ?_
    dsimp only
    omega

theorem Counts.put (h : k.Counts (n+1)) : k.put.Counts n := by
  cases h with
  | live released cnt =>
    cases n with
    | zero =>
      have hlast : k.isLast = true := by rw [isLast,cnt]; rfl
      rw [Kref.put,if_pos hlast]
      exact .ended (by rw [release,released])
    | succ n =>
      have hlast : k.isLast = false := by
        rw [isLast,decide_eq_false_iff_not]
        omega
      rw [Kref.put,if_neg (by rw [hlast]; decide)]
      refine .live released ?_
      dsimp only
      omega

theorem Counts.release (h : k.Counts 1) : k.release.Counts 0 := by
  cases h with
  | live released => exact .ended (by rw [Kref.release,released])

end Kref
end Vessel
