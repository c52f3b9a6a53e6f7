import AlephZero.Err
import AlephZero.Machine.RobinHood

/-!
# The map

The hash map of `map.c`: a Robin Hood table with as many buckets as a power of two,
which doubles when it is half full.

## The model

A key and a value are of any types; where the source fills a table with zeros, a
bucket has distance zero and the default key and value. The callbacks for hash and
comparison may fail. A loop is given fuel, and `none` says that it did not end; the
fuel is enough for a table that is not full. A call that changes the map returns
the map as the call leaves it, after an error as well. `a0_map_put` and
`a0_map_grow` call each other: the depth of these calls is fuel, too.
-/

namespace AlephZero

open Function RobinHood

/-- `a0_map_t`. -/
structure Map (K V : Type) where
  keyHash : K → Except Err ℕ
  keyCmp : K → K → Except Err ℤ
  size : ℕ
  cap : ℕ
  hash2idx : ℕ
  data : Table K V

namespace Map

variable {K V : Type}

/-- `a0_map_init`. -/
def init [Inhabited K] [Inhabited V] (keyHash : K → Except Err ℕ)
    (keyCmp : K → K → Except Err ℤ) : Map K V :=
  ⟨keyHash, keyCmp, 0, 0, 0, fun _ => ⟨0, default, default⟩⟩

/-- No loop over the buckets takes more turns. -/
def fuel (map : Map K V) : ℕ := map.cap + 1

/-- The loop of `a0_map_find`. -/
def findLoop (map : Map K V) (key : K) : ℕ → ℕ → ℕ → Option (Except Err ℕ)
  | 0, _, _ => none
  | fuel + 1, idx, off =>
    if off ≤ (map.data idx).off then
      match map.keyCmp key (map.data idx).key with
      | .error e => some (.error e)
      | .ok cmp =>
        if cmp = 0 then some (.ok idx)
        else findLoop map key fuel ((idx + 1) &&& map.hash2idx) (off + 1)
    else some (.error .notFound)

/-- `a0_map_find`, which gives the index of the bucket. -/
def find (map : Map K V) (key : K) : Option (Except Err ℕ) :=
  if map.size = 0 then some (.error .notFound)
  else
    match map.keyHash key with
    | .error e => some (.error e)
    | .ok hash => map.findLoop key map.fuel (hash &&& map.hash2idx) 1

/-- `a0_map_has`. -/
def has (map : Map K V) (key : K) : Option Bool :=
  (map.find key).map fun r => r.toBool

/-- The loop of `a0_map_iterator_next`: the bucket, and the iterator's index. -/
def iteratorLoop (map : Map K V) : ℕ → ℕ → Option (ℕ × ℕ)
  | 0, _ => none
  | fuel + 1, idx =>
    if idx + 1 ≤ map.cap ∧ (map.data idx).off = 0 then iteratorLoop map fuel (idx + 1)
    else some (idx, idx + 1)

/-- `a0_map_iterator_next`, with the index of the iterator. -/
def iteratorNext (map : Map K V) (idx : ℕ) : Option (Except Err (K × V) × ℕ) :=
  if map.cap ≤ idx then some (.error .iterDone, idx)
  else
    match map.iteratorLoop map.fuel idx with
    | none => none
    | some (bkt, idx) =>
      if map.cap < idx then some (.error .iterDone, idx)
      else some (.ok ((map.data bkt).key, (map.data bkt).val), idx)

/-- The loop of `a0_map_put`: the entry `new` is carried to the bucket `idx`. -/
def putLoop : ℕ → Map K V → Slot K V → ℕ → Option (Except Err Unit × Map K V)
  | 0, _, _, _ => none
  | fuel + 1, map, new, idx =>
    let iter := map.data idx
    if iter.off = 0 then
      some (.ok (), { map with data := update map.data idx new, size := map.size + 1 })
    else
      match map.keyCmp new.key iter.key with
      | .error e => some (.error e, map)
      | .ok cmp =>
        if cmp = 0 then
          some (.ok (), { map with data := update map.data idx { iter with val := new.val } })
        else if iter.off < new.off then
          putLoop fuel { map with data := update map.data idx new } { iter with off := iter.off + 1 }
            ((idx + 1) &&& map.hash2idx)
        else
          putLoop fuel map { new with off := new.off + 1 } ((idx + 1) &&& map.hash2idx)

/-- `a0_map_put` on a map that does not have to grow. -/
def insert (map : Map K V) (key : K) (val : V) : Option (Except Err Unit × Map K V) :=
  match map.keyHash key with
  | .error e => some (.error e, map)
  | .ok hash => putLoop map.fuel map ⟨1, key, val⟩ (hash &&& map.hash2idx)

/-- The loop of `a0_map_grow`: the entries that the iterator gives are put into the new
map. -/
def growLoop (put : Map K V → K → V → Option (Except Err Unit × Map K V)) (map : Map K V) :
    ℕ → ℕ → Map K V → Option (Except Err (Map K V))
  | 0, _, _ => none
  | fuel + 1, iter, newMap =>
    match map.iteratorNext iter with
    | none => none
    | some (.error _, _) => some (.ok newMap)
    | some (.ok (key, val), iter) =>
      match put newMap key val with
      | none => none
      | some (.error e, _) => some (.error e)
      | some (.ok (), newMap) => growLoop put map fuel iter newMap

/-- The capacity of the map that `a0_map_grow` makes. -/
def nextCap (map : Map K V) : ℕ := if map.cap = 0 then 4 else map.cap * 2

section Growth

variable [Inhabited K] [Inhabited V]

/-- The new map of `a0_map_grow`, which is empty. -/
def fresh (map : Map K V) : Map K V :=
  { map with size := 0, cap := map.nextCap, hash2idx := map.nextCap - 1,
             data := fun _ => ⟨0, default, default⟩ }

/-- `a0_map_grow`, with the new map; after an error the map is as it was. -/
def grow (put : Map K V → K → V → Option (Except Err Unit × Map K V)) (map : Map K V) :
    Option (Except Err (Map K V)) :=
  growLoop put map map.fuel 0 map.fresh

/-- `a0_map_put`, with at most `depth` of its calls in one another. -/
def putDepth : ℕ → Map K V → K → V → Option (Except Err Unit × Map K V)
  | 0, _, _, _ => none
  | depth + 1, map, key, val =>
    if map.cap ≤ map.size * 2 then
      match grow (putDepth depth) map with
      | none => none
      | some (.error e) => some (.error e, map)
      | some (.ok map) => map.insert key val
    else map.insert key val

/-- `a0_map_put`. The map that `a0_map_grow` makes does not have to grow again. -/
def put (map : Map K V) (key : K) (val : V) : Option (Except Err Unit × Map K V) :=
  putDepth 2 map key val

end Growth

/-- The loop of `a0_map_del_bucket`: the bucket `bkt` is free. -/
def delBucketLoop : ℕ → Map K V → ℕ → Option (Map K V)
  | 0, _, _ => none
  | fuel + 1, map, bkt =>
    let nextIdx := (bkt + 1) &&& map.hash2idx
    let next := map.data nextIdx
    if 1 < next.off then
      delBucketLoop fuel { map with
        data := update (update map.data bkt { next with off := next.off - 1 })
          nextIdx { next with off := 0 } } nextIdx
    else some map

/-- `a0_map_del_bucket`. -/
def delBucket (map : Map K V) (bkt : ℕ) : Option (Map K V) :=
  delBucketLoop map.fuel
    { map with data := update map.data bkt { map.data bkt with off := 0 }, size := map.size - 1 } bkt

/-- `a0_map_del`. -/
def del (map : Map K V) (key : K) : Option (Except Err Unit × Map K V) :=
  match map.find key with
  | none => none
  | some (.error e) => some (.error e, map)
  | some (.ok bkt) => (map.delBucket bkt).map fun map => (.ok (), map)

/-- `a0_map_get`, with the value that the pointer points to. -/
def get (map : Map K V) (key : K) : Option (Except Err V) :=
  (map.find key).map fun r => r.map fun bkt => (map.data bkt).val

/-- `a0_map_pop`. -/
def pop (map : Map K V) (key : K) : Option (Except Err V × Map K V) :=
  match map.find key with
  | none => none
  | some (.error e) => some (.error e, map)
  | some (.ok bkt) => (map.delBucket bkt).map fun map' => (.ok (map.data bkt).val, map')

/-- What the calls of `a0_map_iterator_next` give, up to the one that fails, and its
error. -/
def iterate (map : Map K V) : ℕ → ℕ → Option (List (K × V) × Err)
  | 0, _ => none
  | fuel + 1, idx =>
    match map.iteratorNext idx with
    | none => none
    | some (.error e, _) => some ([], e)
    | some (.ok p, idx) => (iterate map fuel idx).map fun (l, e) => (p :: l, e)

/-! ### Calls on a map -/

/-- A call. -/
inductive Call (K V : Type) where
  | put (key : K) (val : V)
  | del (key : K)
  | pop (key : K)
  | get (key : K)
  | has (key : K)
  | size
  | empty

/-- What a call returns. -/
inductive Reply (V : Type) where
  | done (r : Except Err Unit)
  | val (r : Except Err V)
  | contains (r : Bool)
  | size (n : ℕ)
  | empty (r : Bool)

variable [Inhabited K] [Inhabited V]

/-- The function that is called. -/
def call (map : Map K V) : Call K V → Option (Reply V × Map K V)
  | .put key val => (map.put key val).map fun (r, map) => (.done r, map)
  | .del key => (map.del key).map fun (r, map) => (.done r, map)
  | .pop key => (map.pop key).map fun (r, map) => (.val r, map)
  | .get key => (map.get key).map fun r => (.val r, map)
  | .has key => (map.has key).map fun r => (.contains r, map)
  | .size => some (.size map.size, map)
  | .empty => some (.empty (map.size == 0), map)

/-- Calls one after the other. -/
def run (map : Map K V) : List (Call K V) → Option (List (Reply V) × Map K V)
  | [] => some ([], map)
  | c :: calls =>
    match map.call c with
    | none => none
    | some (reply, map) => (run map calls).map fun (replies, map) => (reply :: replies, map)

end Map

end AlephZero
