import Kronos.ByteRange
import Kronos.SortedRun

namespace Kronos.ObjectStore
open ByteRange SortedRun

-- Named objects that are written once: their contents by key, keys in order.
structure Store where
  objects : List (Bytes × Bytes)
  sorted : Ascending Prod.fst objects
  deriving DecidableEq

namespace Store

def empty : Store := ⟨[],List.Pairwise.nil⟩

def get (store : Store) (key : Bytes) : Option Bytes := (find Prod.fst store.objects key).map Prod.snd

def put (store : Store) (key data : Bytes) : Store :=
  ⟨SortedRun.put Prod.fst store.objects (key,data),put_ascending Prod.fst store.sorted _⟩

def delete (store : Store) (key : Bytes) : Store :=
  ⟨drop Prod.fst store.objects key,drop_ascending Prod.fst store.sorted key⟩

variable (store : Store)

theorem get_put (key data other : Bytes) :
    (store.put key data).get other = if other = key then some data else store.get other := by
  unfold get put
  rw [find_put Prod.fst store.sorted]
  split <;> rfl

theorem get_delete (key other : Bytes) :
    (store.delete key).get other = if other = key then none else store.get other := by
  unfold get delete
  rw [find_drop Prod.fst store.sorted]
  split <;> rfl

end Store
end Kronos.ObjectStore
