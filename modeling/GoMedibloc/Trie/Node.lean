import GoMedibloc.Framework.RadixTree

/-!
# Routes and nodes of the Merkle Patricia trie

The key of a trie entry is a byte string; the trie walks along its `keyToRoute`, two
nibbles for each byte.  A node is a branch with 17 slots (one for each nibble and slot 16
for a value that ends here), an extension, or a value.  An unused slot is `nil` in memory
and empty after decoding; both are the empty byte string here.

`NodeCodec` gathers what the trie takes from outside: the protobuf encoding of a node,
SHA3-256, and how much spare capacity the Go runtime gives to a slice it allocates.  The
encoding is assumed to decode to what was encoded, the hash to be collision free and never
empty; nothing is assumed about the spare capacity.  `NodeCodec.plain` meets the assumptions
and can be computed; the runs on concrete keys use it.
-/

namespace GoMedibloc

/-- A Go byte slice; `nil` and the empty slice are one value. -/
abbrev Bytes := List UInt8

/-- The hash of a node, the key of its storage entry; empty for "no node". -/
abbrev Hash := Bytes

instance lawfulBEq_bytes : LawfulBEq Bytes := inferInstance

/-- A route through the trie. -/
abbrev Route := List (Fin 16)

-- Numerals for nibbles and for the slots of a branch.
instance neZero_nibbles : NeZero 16 := ⟨by decide⟩
instance neZero_slots : NeZero 17 := ⟨by decide⟩

/-- Both nibbles of a byte, the high one first. -/
def byteToRoute (b : UInt8) : Route :=
  [⟨b.toNat / 16, by have := b.toNat_lt; omega⟩, ⟨b.toNat % 16, by omega⟩]

/-- `KeyToRoute`: the route of a key. -/
def keyToRoute (key : Bytes) : Route := key.flatMap byteToRoute

@[simp] lemma keyToRoute_nil : keyToRoute [] = [] := rfl

@[simp] lemma keyToRoute_append (k l : Bytes) :
    keyToRoute (k ++ l) = keyToRoute k ++ keyToRoute l := by
  simp [keyToRoute]

lemma keyToRoute_cons (b : UInt8) (k : Bytes) :
    keyToRoute (b :: k) = byteToRoute b ++ keyToRoute k := rfl

lemma byteToRoute_injective : Function.Injective byteToRoute := by
  intro a b h
  simp only [byteToRoute, List.cons.injEq, Fin.mk.injEq, and_true] at h
  apply UInt8.toNat_inj.1
  have ha := Nat.div_add_mod a.toNat 16
  have hb := Nat.div_add_mod b.toNat 16
  omega

/-- One key extends another exactly when its route does: routes have whole bytes. -/
lemma keyToRoute_prefix_iff {k l : Bytes} : keyToRoute k <+: keyToRoute l ↔ k <+: l := by
  induction k generalizing l with
  | nil => simp
  | cons a k ih =>
      cases l with
      | nil => simp [keyToRoute_cons, byteToRoute]
      | cons b l =>
          rw [keyToRoute_cons, keyToRoute_cons, List.cons_prefix_cons, ← ih]
          constructor
          · rintro ⟨s, hs⟩
            rw [List.append_assoc] at hs
            obtain ⟨hab, hkl⟩ := List.append_inj hs rfl
            exact ⟨byteToRoute_injective hab, s, hkl⟩
          · rintro ⟨rfl, s, hs⟩
            exact ⟨s, by rw [List.append_assoc, hs]⟩

lemma keyToRoute_injective : Function.Injective keyToRoute := by
  intro k l h
  have hkl : k <+: l := keyToRoute_prefix_iff.1 (h ▸ List.prefix_rfl)
  have hlk : l <+: k := keyToRoute_prefix_iff.1 (h ▸ List.prefix_rfl)
  exact hkl.eq_of_length (Nat.le_antisymm hkl.length_le hlk.length_le)

/-- A node of the trie. -/
inductive Node where
  /-- 17 slots, each the hash of a child or empty. -/
  | branch (slots : Fin 17 → Hash)
  /-- A path and the hash of the node at its end. -/
  | ext (path : Route) (next : Hash)
  /-- A stored value. -/
  | val (value : Bytes)
  deriving DecidableEq

namespace Node

/-- `n.Val[i]` of a branch. -/
def slot : Node → Fin 17 → Hash
  | branch slots, i => slots i
  | _, _ => []

/-- `n.Val[0]` of an extension. -/
def path : Node → Route
  | ext path _ => path
  | _ => []

/-- `n.Val[1]` of an extension. -/
def next : Node → Hash
  | ext _ next => next
  | _ => []

/-- The contents of a branch with slot `i` set to `h`. -/
def setSlot (i : Fin 17) (h : Hash) : Node → Node
  | branch slots => branch (Function.update slots i h)
  | n => n

/-- `emptyBranchNode`. -/
def emptyBranch : Node := branch fun _ => []

end Node

/-- What the trie takes from outside: the encoding of nodes, the hash function and the
allocation of slices. -/
structure NodeCodec where
  /-- `proto.Marshal` of a node. -/
  marshal : Node → Bytes
  /-- `proto.Unmarshal` of a node together with the check of its type. -/
  unmarshal : Bytes → Option Node
  /-- `sha3.Sum256`. -/
  sha3 : Bytes → Hash
  /-- The spare capacity of a slice that is decoded or grown to a given length. -/
  spare : ℕ → ℕ
  /-- Encoding is undone by decoding. -/
  unmarshal_marshal : ∀ n, unmarshal (marshal n) = some n
  /-- The hash function is collision free. -/
  sha3_injective : Function.Injective sha3
  /-- A hash is not the empty byte string. -/
  sha3_ne_nil : ∀ b, sha3 b ≠ []

namespace NodeCodec

variable (C : NodeCodec)

/-- The hash of a node. -/
def hash (n : Node) : Hash := C.sha3 (C.marshal n)

lemma marshal_injective : Function.Injective C.marshal := by
  intro m n h
  have := C.unmarshal_marshal m
  rw [h, C.unmarshal_marshal] at this
  exact (Option.some.inj this).symm

lemma hash_injective : Function.Injective C.hash :=
  C.sha3_injective.comp C.marshal_injective

@[simp] lemma hash_ne_nil (n : Node) : C.hash n ≠ [] := C.sha3_ne_nil _

/-! ## A codec that can be computed -/

/-- A byte string with a mark before each byte and another one at its end. -/
def encodeBytes (b : Bytes) : Bytes := b.flatMap (fun x => [1, x]) ++ [0]

/-- Read one marked byte string. -/
def decodeBytes : Bytes → Option (Bytes × Bytes)
  | [] => none
  | [a] => if a = 0 then some ([], []) else none
  | a :: x :: l =>
      if a = 0 then some ([], x :: l) else (decodeBytes l).map fun (b, r) => (x :: b, r)

/-- Read several marked byte strings. -/
def decodeMany : ℕ → Bytes → Option (List Bytes × Bytes)
  | 0, l => some ([], l)
  | n + 1, l => (decodeBytes l).bind fun (b, l) =>
      (decodeMany n l).map fun (bs, l) => (b :: bs, l)

lemma decodeBytes_encodeBytes (b r : Bytes) : decodeBytes (encodeBytes b ++ r) = some (b, r) := by
  induction b with
  | nil => cases r <;> simp [encodeBytes, decodeBytes]
  | cons x b ih =>
      have hcons : encodeBytes (x :: b) ++ r = 1 :: x :: (encodeBytes b ++ r) := by
        simp [encodeBytes]
      rw [hcons, decodeBytes, if_neg (by decide), ih]
      rfl

lemma decodeMany_flatMap (bs : List Bytes) (r : Bytes) :
    decodeMany bs.length (bs.flatMap encodeBytes ++ r) = some (bs, r) := by
  induction bs with
  | nil => rfl
  | cons b bs ih =>
      rw [List.length_cons, List.flatMap_cons, List.append_assoc, decodeMany,
        decodeBytes_encodeBytes, Option.bind_some]
      dsimp only
      rw [ih]
      rfl

/-- Mark and encode the fields of a node. -/
def plainMarshal : Node → Bytes
  | .branch slots => 0 :: (List.ofFn slots).flatMap encodeBytes
  | .ext path next =>
      1 :: [path.map fun i : Fin 16 => UInt8.ofNat i.val, next].flatMap encodeBytes
  | .val value => 2 :: value

def plainUnmarshal : Bytes → Option Node
  | [] => none
  | a :: l =>
      if a = 0 then (decodeMany 17 l).map fun (bs, _) => .branch fun i => bs.getD i []
      else if a = 1 then
        (decodeMany 2 l).map fun (bs, _) =>
          .ext ((bs.getD 0 []).map fun x => Fin.ofNat 16 x.toNat) (bs.getD 1 [])
      else some (.val l)

lemma plainUnmarshal_plainMarshal (n : Node) : plainUnmarshal (plainMarshal n) = some n := by
  cases n with
  | branch slots =>
      have h := decodeMany_flatMap (List.ofFn slots) []
      rw [List.length_ofFn, List.append_nil] at h
      rw [plainMarshal, plainUnmarshal, if_pos rfl, h, Option.map_some]
      refine congrArg (fun slots => some (Node.branch slots)) (funext fun i => ?_)
      rw [List.getD_eq_getElem?_getD, List.getElem?_ofFn, dif_pos i.isLt, Option.getD_some]
  | ext path next =>
      have h := decodeMany_flatMap [path.map fun i : Fin 16 => UInt8.ofNat i.val, next] []
      rw [List.append_nil] at h
      have hpath : (path.map fun i : Fin 16 => UInt8.ofNat i.val).map
          (fun x => Fin.ofNat 16 x.toNat) = path := by
        rw [List.map_map]
        refine List.map_id'' (fun i => ?_) path
        have hi : (i : ℕ) % 256 = i := Nat.mod_eq_of_lt (by omega)
        apply Fin.ext
        simp [hi]
      rw [plainMarshal, plainUnmarshal, if_neg (by decide), if_pos rfl]
      simp only [List.length_cons, List.length_nil] at h
      rw [h, Option.map_some]
      exact congrArg (fun p => some (Node.ext p next)) hpath
  | val value => rfl

/-- A codec that can be computed: the hash of a byte string is the marked byte string. -/
def plain : NodeCodec where
  marshal := plainMarshal
  unmarshal := plainUnmarshal
  sha3 := fun b => 0 :: b
  spare := fun _ => 0
  unmarshal_marshal := plainUnmarshal_plainMarshal
  sha3_injective := fun _ _ h => (List.cons.inj h).2
  sha3_ne_nil := fun _ => List.cons_ne_nil _ _

end NodeCodec

end GoMedibloc
