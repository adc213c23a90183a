import Mathlib.Tactic

/-!
# Expiring — a key-value store whose entries expire

An entry is a value with a deadline; from the deadline on, a reader does not find it.  Time is the
store's own.
-/

namespace OpenWeights
namespace Lib

/-- The values of a store, each with its deadline. -/
abbrev Expiring (κ ν : Type) := κ → Option (ν × Int)

namespace Expiring

variable {κ ν : Type} [DecidableEq κ]

def empty : Expiring κ ν := fun _ => none

def get (s : Expiring κ ν) (clock : Int) (k : κ) : Option ν :=
  (s k).bind fun entry => if clock < entry.2 then some entry.1 else none

/-- Write a value that is there for `ttl`. -/
def setEx (s : Expiring κ ν) (clock : Int) (k : κ) (v : ν) (ttl : Int) : Expiring κ ν :=
  Function.update s k (some (v, clock + ttl))

variable {s : Expiring κ ν} {clock later ttl : Int} {k k' : κ} {v : ν}

omit [DecidableEq κ] in
@[simp] theorem get_empty : (empty : Expiring κ ν).get clock k = none := rfl

theorem get_setEx_self (h : later < clock + ttl) :
    (s.setEx clock k v ttl).get later k = some v := by
  simp [get, setEx, h]

theorem get_setEx_of_expired (h : clock + ttl ≤ later) :
    (s.setEx clock k v ttl).get later k = none := by
  simp [get, setEx, not_lt.2 h]

/-- What a write leaves under its key does not depend on what was there. -/
theorem get_setEx_congr (s s' : Expiring κ ν) :
    (s.setEx clock k v ttl).get later k = (s'.setEx clock k v ttl).get later k := by
  simp [get, setEx]

@[simp] theorem get_setEx_of_ne (h : k' ≠ k) :
    (s.setEx clock k v ttl).get later k' = s.get later k' := by
  simp [get, setEx, h]

omit [DecidableEq κ] in
/-- Time decides whether an entry is found, not what is in it. -/
theorem get_unique {v' : ν} (h : s.get clock k = some v) (h' : s.get later k = some v') : v = v' := by
  obtain ⟨entry, hentry, hfound⟩ := Option.bind_eq_some_iff.1 h
  obtain ⟨entry', hentry', hfound'⟩ := Option.bind_eq_some_iff.1 h'
  cases hentry.symm.trans hentry'
  have hv : v = entry.1 := by
    split at hfound
    · exact (Option.some.inj hfound).symm
    · cases hfound
  have hv' : v' = entry.1 := by
    split at hfound'
    · exact (Option.some.inj hfound').symm
    · cases hfound'
  exact hv.trans hv'.symm

end Expiring

end Lib
end OpenWeights
