import BitBay.Library.MapEntries

/-!
# Writes that are pending for an ordered map

A batch of writes is applied to a map one after the other, so the last write under a key is the
one that counts. `pending` finds it without applying anything, and reads the map through the
batch.
-/
namespace BitBay

/-- A write to a map. -/
inductive MapWrite (K V : Type*)
  | put (key : K) (value : V)
  | delete (key : K)

namespace MapWrite

variable {K V : Type*} [LinearOrder K]

def key : MapWrite K V → K
  | put key _ => key
  | delete key => key

def result : MapWrite K V → Option V
  | put _ value => some value
  | delete _ => none

def apply (m : SortedMap K V) : MapWrite K V → SortedMap K V
  | put key value => m.insert key value
  | delete key => m.erase key

def pending (writes : List (MapWrite K V)) (k : K) : Option (Option V) :=
  writes.foldl (fun found w => if w.key = k then some w.result else found) none

variable {m : SortedMap K V} {w : MapWrite K V} {writes : List (MapWrite K V)} {k : K}

@[simp] theorem pending_nil : pending ([] : List (MapWrite K V)) k = none := rfl

theorem pending_concat :
    pending (writes ++ [w]) k = if w.key = k then some w.result else pending writes k := by
  simp [pending, List.foldl_append]

@[simp] theorem pending_concat_put {a : K} {v : V} : pending (writes ++ [put a v]) k =
    if a = k then some (some v) else pending writes k := pending_concat

@[simp] theorem pending_concat_delete {a : K} : pending (writes ++ [delete a]) k =
    if a = k then some none else pending writes k := pending_concat

theorem lookup_apply : (apply m w).lookup k = if w.key = k then w.result else m.lookup k := by
  cases w with
  | put a value =>
    rw [apply, SortedMap.lookup_insert]
    simp only [MapWrite.key, result, eq_comm]
  | delete a =>
    rw [apply, SortedMap.lookup_erase]
    simp only [MapWrite.key, result, eq_comm]

/-- A map to which the writes were applied reads like the map behind the pending writes. -/
theorem lookup_foldl_apply :
    (writes.foldl apply m).lookup k = (pending writes k).getD (m.lookup k) := by
  induction writes using List.reverseRecOn with
  | nil => rfl
  | append_singleton writes w ih =>
    rw [List.foldl_append, List.foldl_cons, List.foldl_nil, lookup_apply, pending_concat, ih]
    split_ifs <;> rfl

end MapWrite

end BitBay
