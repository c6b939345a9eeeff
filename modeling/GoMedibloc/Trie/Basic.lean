import GoMedibloc.Framework.Program
import GoMedibloc.Framework.Slice
import GoMedibloc.Trie.Node

/-!
# The trie

The program of `common/trie/trie.go`.  A trie is a root hash over a key-value storage.
Between `prepare` and `flush` it does not write to the storage: nodes are kept in
`tempNodes`, a cache from the hash of a node to a *pointer* to the node, with a reference
count and a flag that says that the storage already has the node.

Node objects are mutable and shared: `fetchNode` hands out the pointer that the cache holds,
the operations assign to the fields of the object it points to, and `saveNode` enters the
same object into the cache once more under its new hash.  The model keeps this: `heap` is
the Go heap of node objects, a pointer is an index into it, and the state after an operation
is whatever the assignments left there.  The path of an extension is a Go slice, and parts
of one path may stand in several objects; `arrays` are the backing arrays.  An unprepared
trie allocates a new object for every node it reads and writes saved nodes straight to the
storage.

`update` and `delete` recurse along the route.  The source bounds that recursion only
through the shape of the trie, so the functions here take fuel; `put`, `get` and
`deleteKey` start them with two more than the length of the route.
-/

namespace GoMedibloc

/-- The errors of the trie package. -/
inductive TrieErr where
  /-- `ErrNotFound`, the storage's `ErrKeyNotFound`. -/
  | notFound
  /-- `ErrInvalidNodeType`. -/
  | invalidNodeType
  /-- `ErrCannotClonePreparedTrie`. -/
  | cannotClonePreparedTrie
  /-- `ErrAlreadyPreparedTrie`. -/
  | alreadyPreparedTrie
  /-- `ErrNotPrepared`. -/
  | notPrepared
  /-- `ErrCannotPerformInBatch`. -/
  | cannotPerformInBatch
  /-- `ErrNotBatching`. -/
  | notBatching
  /-- The model ran out of fuel; not an error of the source. -/
  | outOfFuel
  deriving DecidableEq, Repr

/-- A key-value storage. -/
abbrev Storage := Bytes → Option Bytes

/-- The fields `Type` and `Val` of a node object.  The path of an extension is a slice, and
several objects may hold slices of one array. -/
inductive NodeBody where
  | branch (slots : Fin 17 → Hash)
  | ext (path : Slice) (next : Hash)
  | val (value : Bytes)
  deriving DecidableEq

namespace NodeBody

/-- The node that the fields hold. -/
def toNode (A : Arrays (Fin 16)) : NodeBody → Node
  | branch slots => .branch slots
  | ext path next => .ext (A.read path) next
  | val value => .val value

/-- `n.Val[0]` of an extension. -/
def path : NodeBody → Slice
  | ext path _ => path
  | _ => ⟨0, 0, 0⟩

/-- The assignment `n.Val[i] = h` on a branch. -/
def setSlot (i : Fin 17) (h : Hash) : NodeBody → NodeBody
  | branch slots => branch (Function.update slots i h)
  | n => n

/-- The assignment `n.Val[0] = p` on an extension. -/
def setPath (p : Slice) : NodeBody → NodeBody
  | ext _ next => ext p next
  | n => n

/-- The assignment `n.Val[1] = h` on an extension. -/
def setNext (h : Hash) : NodeBody → NodeBody
  | ext path _ => ext path h
  | n => n

end NodeBody

/-- A node object on the Go heap: its fields and its `Hash` field. -/
structure NodeObj where
  body : NodeBody
  hash : Hash
  deriving DecidableEq

/-- A pointer to a node object. -/
abbrev NodePtr := ℕ

/-- An entry of the cache of a prepared trie. -/
structure TempNode where
  node : NodePtr
  refCount : ℤ
  saved : Bool
  deriving DecidableEq

/-- A trie, with the heap its node objects and their paths live on. -/
structure Trie where
  rootHash : Hash
  storage : Storage
  prepared : Bool
  tempNodes : Hash → Option TempNode
  /-- The objects; those from `nextPtr` on are not allocated yet. -/
  heap : NodePtr → NodeObj
  nextPtr : NodePtr
  /-- The backing arrays of the paths. -/
  arrays : Arrays (Fin 16)

/-- A program on a trie. -/
abbrev TrieM := Prog Trie TrieErr

namespace Trie

/-- The node that an object holds. -/
def node (t : Trie) (p : NodePtr) : Node := (t.heap p).body.toNode t.arrays

/-- A trie over a storage with nothing cached. -/
def ofRoot (rootHash : Hash) (storage : Storage) : Trie where
  rootHash := rootHash
  storage := storage
  prepared := false
  tempNodes := fun _ => none
  heap := fun _ => ⟨.val [], []⟩
  nextPtr := 0
  arrays := ⟨fun _ => [], 0⟩

/-- `NewTrie`: open a trie at a root that the storage has, or at the empty root. -/
def newTrie (rootHash : Hash) (storage : Storage) : Except TrieErr Trie :=
  if rootHash = [] then .ok (ofRoot rootHash storage)
  else match storage rootHash with
    | none => .error .notFound
    | some _ => .ok (ofRoot rootHash storage)

/-- `Trie.Clone`. -/
def clone (t : Trie) : Except TrieErr Trie :=
  if t.prepared then .error .cannotClonePreparedTrie else newTrie t.rootHash t.storage

/-- `Trie.Prepare`. -/
def prepare : TrieM Unit := do
  let t ← Prog.read
  if t.prepared then Prog.fail .alreadyPreparedTrie
  else Prog.update fun t => { t with tempNodes := fun _ => none, prepared := true }

/-! ## Node objects -/

/-- Allocate a slice with some spare capacity. -/
def newSlice (l : Route) (spare : ℕ) : TrieM Slice := fun t =>
  let (s, arrays) := t.arrays.alloc l (List.replicate spare 0)
  (.ok s, { t with arrays := arrays })

/-- `append(s, l...)`. -/
def appendSlice (s : Slice) (l : Route) (spare : ℕ) : TrieM Slice := fun t =>
  let (s', arrays) := t.arrays.append s l (List.replicate spare 0)
  (.ok s', { t with arrays := arrays })

/-- Allocate an object. -/
def newObj (b : NodeBody) : TrieM NodePtr := fun t =>
  (.ok t.nextPtr,
    { t with heap := Function.update t.heap t.nextPtr ⟨b, []⟩, nextPtr := t.nextPtr + 1 })

/-- Allocate an object that holds a given node; an extension gets a path of its own. -/
def newNode (n : Node) (spare : ℕ) : TrieM NodePtr :=
  match n with
  | .branch slots => newObj (.branch slots)
  | .ext path next => do
      let s ← newSlice path spare
      newObj (.ext s next)
  | .val value => newObj (.val value)

/-- The trie with another object under a pointer. -/
def setObj (p : NodePtr) (o : NodeObj) (t : Trie) : Trie :=
  { t with heap := Function.update t.heap p o }

/-- Assign to the fields of an object. -/
def modifyNode (p : NodePtr) (f : NodeBody → NodeBody) : TrieM Unit :=
  Prog.update fun t => t.setObj p ⟨f (t.heap p).body, (t.heap p).hash⟩

/-- Assign to the `Hash` field of an object. -/
def setHash (p : NodePtr) (h : Hash) : TrieM Unit :=
  Prog.update fun t => t.setObj p ⟨(t.heap p).body, h⟩

/-- Enter an object into the cache. -/
def cache (h : Hash) (temp : TempNode) : TrieM Unit :=
  Prog.update fun t => { t with tempNodes := Function.update t.tempNodes h (some temp) }

variable (C : NodeCodec)

/-- The part of `fetchNode` that reads and decodes a node: a new object that carries the
hash it was read under. -/
def loadNode (hash : Hash) : TrieM NodePtr := do
  let t ← Prog.read
  match t.storage hash with
  | none => Prog.fail .notFound
  | some value =>
      match C.unmarshal value with
      | none => Prog.fail .invalidNodeType
      | some node => do
          let n ← newNode node (C.spare node.path.length)
          setHash n hash
          pure n

/-- `Trie.fetchNode`: the object cached under a hash, or the storage's node. -/
def fetchNode (hash : Hash) : TrieM NodePtr := do
  let t ← Prog.read
  if t.prepared then
    match t.tempNodes hash with
    | some temp => pure temp.node
    | none => do
        let n ← loadNode C hash
        cache hash ⟨n, 0, true⟩
        pure n
  else loadNode C hash

/-- `Trie.saveNode`: a prepared trie counts one more reference to the entry under the
node's hash, whatever object that entry holds, or enters this object. -/
def saveNode (n : NodePtr) : TrieM Hash := do
  let t ← Prog.read
  let hash := C.hash (t.node n)
  setHash n hash
  if t.prepared then
    match t.tempNodes hash with
    | some temp => cache hash { temp with refCount := temp.refCount + 1 }
    | none => cache hash ⟨n, 1, (t.storage hash).isSome⟩
  else
    Prog.update fun t => { t with
      storage := Function.update t.storage hash (some (C.marshal (t.node n))) }
  pure hash

/-- An entry with one reference less, unless the storage has its node; the entry goes with
its last reference. -/
def deref (temp : TempNode) : Option TempNode :=
  if temp.saved then some temp
  else if temp.refCount - 1 < 1 then none
  else some { temp with refCount := temp.refCount - 1 }

/-- The trie with one reference less to a cached node. -/
def deprecated (hash : Hash) (t : Trie) : Trie :=
  { t with
    tempNodes :=
      if t.prepared then Function.update t.tempNodes hash ((t.tempNodes hash).bind deref)
      else t.tempNodes }

/-- `Trie.deprecateNode`. -/
def deprecateNode (hash : Hash) : TrieM Unit := Prog.update (deprecated hash)

/-- Allocate a node and save it, as the source does for the nodes it builds. -/
def saveNew (n : Node) : TrieM Hash := do
  let p ← newNode n 0
  saveNode C p

/-- An extension with a path of its own over a saved node, unless the path is empty; the
source writes the two cases out wherever it needs them. -/
def saveExt (path : Route) (hash : Hash) : TrieM Hash :=
  if path = [] then pure hash else saveNew C (.ext path hash)

/-- `Trie.addExtToBranch`; the new extension holds the slice itself. -/
def addExtToBranch (branchHash : Hash) (path : Slice) : TrieM Hash :=
  if path.len = 0 then pure branchHash
  else do
    let p ← newObj (.ext path branchHash)
    saveNode C p

/-! ## Put -/

/-- `Trie.updateBranch`; `update` is the recursive call. -/
def updateBranch (update : Hash → Route → Bytes → TrieM Hash) (n : NodePtr) (route : Route)
    (value : Bytes) : TrieM Hash := do
  let t ← Prog.read
  let oldHash := (t.heap n).hash
  match route with
  | [] => do
      if (t.node n).slot 16 ≠ [] then deprecateNode ((t.node n).slot 16)
      let hash ← saveNew C (.val value)
      modifyNode n (NodeBody.setSlot 16 hash)
  | i :: rest => do
      let hash ← update ((t.node n).slot i.castSucc) rest value
      modifyNode n (NodeBody.setSlot i.castSucc hash)
  deprecateNode oldHash
  saveNode C n

/-- The end of `Trie.updateExt`: the slot of the new value in the branch that splits an
extension, for the part of the route after the common prefix. -/
def forkValue (branch : Node) (rest : Route) (value : Bytes) : TrieM Node := do
  let hash ← saveNew C (.val value)
  match rest with
  | [] => pure (branch.setSlot 16 hash)
  | b :: rest => do
      let hash ← saveExt C rest hash
      pure (branch.setSlot b.castSucc hash)

/-- `Trie.updateExt`; `update` is the recursive call. -/
def updateExt (update : Hash → Route → Bytes → TrieM Hash) (n : NodePtr) (route : Route)
    (value : Bytes) : TrieM Hash := do
  let t ← Prog.read
  let slice := (t.heap n).body.path
  let path := (t.node n).path
  let next := (t.node n).next
  let oldHash := (t.heap n).hash
  let matchLen := Radix.commonLen path route
  match path.drop matchLen with
  | [] => do
      let hash ← update next (route.drop matchLen) value
      modifyNode n (NodeBody.setNext hash)
      deprecateNode oldHash
      saveNode C n
  | [a] => do
      let branch ← forkValue C (Node.emptyBranch.setSlot a.castSucc next)
        (route.drop matchLen) value
      deprecateNode oldHash
      let hash ← saveNew C branch
      addExtToBranch C hash (slice.take matchLen)
  | a :: _ => do
      modifyNode n (NodeBody.setPath (slice.drop (matchLen + 1)))
      let hash ← saveNode C n
      let branch ← forkValue C (Node.emptyBranch.setSlot a.castSucc hash)
        (route.drop matchLen) value
      deprecateNode oldHash
      let hash ← saveNew C branch
      addExtToBranch C hash (slice.take matchLen)

/-- `Trie.updateVal`. -/
def updateVal (n : NodePtr) (route : Route) (value : Bytes) : TrieM Hash := do
  let t ← Prog.read
  let hash ← saveNew C (.val value)
  match route with
  | [] => do
      deprecateNode (t.heap n).hash
      pure hash
  | a :: rest => do
      let hash ← saveExt C rest hash
      saveNew C ((Node.emptyBranch.setSlot 16 (t.heap n).hash).setSlot a.castSucc hash)

/-- `Trie.update`: put a value below a node. -/
def update : ℕ → Hash → Route → Bytes → TrieM Hash
  | 0, _, _, _ => Prog.fail .outOfFuel
  | fuel + 1, root, route, value =>
      if root = [] then do
        let hash ← saveNew C (.val value)
        saveExt C route hash
      else do
        let n ← fetchNode C root
        let t ← Prog.read
        match t.node n with
        | .branch _ => updateBranch C (update fuel) n route value
        | .ext _ _ => updateExt C (update fuel) n route value
        | .val _ => updateVal C n route value

/-- `Trie.Put`. -/
def put (key value : Bytes) : TrieM Unit := do
  let t ← Prog.read
  let route := keyToRoute key
  let hash ← update C (route.length + 2) t.rootHash route value
  Prog.update fun t => { t with rootHash := hash }

/-! ## Get -/

/-- The loop of `Trie.get`. -/
def getLoop : ℕ → Hash → Route → TrieM Bytes
  | 0, _, _ => Prog.fail .outOfFuel
  | fuel + 1, curRootHash, curRoute => do
      let n ← fetchNode C curRootHash
      let t ← Prog.read
      match t.node n with
      | .branch slots =>
          match curRoute with
          | [] => getLoop fuel (slots 16) []
          | i :: rest => getLoop fuel (slots i.castSucc) rest
      | .ext path next =>
          if Radix.commonLen path curRoute ≠ path.length then Prog.fail .notFound
          else getLoop fuel next (curRoute.drop path.length)
      | .val value => if curRoute ≠ [] then Prog.fail .notFound else pure value

/-- `Trie.Get`. -/
def get (key : Bytes) : TrieM Bytes := do
  let t ← Prog.read
  let route := keyToRoute key
  getLoop C (route.length + 2) t.rootHash route

/-! ## Delete -/

/-- The occupied slots of a branch, in order. -/
def occupiedSlots (n : Node) : List (Fin 17) :=
  (List.finRange 17).filter fun i => n.slot i ≠ []

/-- The end of the branch case of `Trie.delete` for a branch that is left with fewer than two
children: the last occupied slot takes its place.  The object of the branch itself is not
saved again. -/
def collapseBranch (n : NodePtr) : TrieM Hash := do
  let t ← Prog.read
  let childIndex := (occupiedSlots (t.node n)).getLastD 0
  let child := (t.node n).slot childIndex
  let childNode ← fetchNode C child
  let t ← Prog.read
  match t.node childNode with
  | .branch _ => saveNew C (.ext [Fin.ofNat 16 childIndex] child)
  | .ext path _ => do
      deprecateNode (t.heap childNode).hash
      let newPath := Fin.ofNat 16 childIndex :: path
      let s ← newSlice newPath (C.spare newPath.length)
      modifyNode childNode (NodeBody.setPath s)
      saveNode C childNode
  | .val _ =>
      if childIndex = 16 then pure (t.heap childNode).hash
      else saveNew C (.ext [Fin.ofNat 16 childIndex] (t.heap childNode).hash)

/-- The branch case of `Trie.delete`, after the recursive call has returned the new hash of
the child in slot `index`. -/
def deleteBranch (rootHash : Hash) (n : NodePtr) (index : Fin 17) (childHash : Hash) :
    TrieM Hash := do
  modifyNode n (NodeBody.setSlot index childHash)
  let t ← Prog.read
  deprecateNode rootHash
  if (occupiedSlots (t.node n)).length < 2 then collapseBranch C n
  else saveNode C n

/-- The extension case of `Trie.delete`, after the recursive call has returned the new hash
of the child.  Merging two extensions appends to the path of the parent, in place when the
array of that path has room. -/
def deleteExt (rootHash : Hash) (n : NodePtr) (childHash : Hash) : TrieM Hash := do
  if childHash = [] then do
    deprecateNode rootHash
    pure []
  else do
    let childNode ← fetchNode C childHash
    let t ← Prog.read
    match t.node childNode with
    | .ext path _ => do
        let s ← appendSlice (t.heap n).body.path path
          (C.spare ((t.node n).path.length + path.length))
        modifyNode childNode (NodeBody.setPath s)
        deprecateNode childHash
        saveNode C childNode
    | _ => do
        modifyNode n (NodeBody.setNext childHash)
        deprecateNode rootHash
        saveNode C n

/-- `Trie.delete`.  The value case does not look at what is left of the route. -/
def delete : ℕ → Hash → Route → TrieM Hash
  | 0, _, _ => Prog.fail .outOfFuel
  | fuel + 1, rootHash, route => do
      let n ← fetchNode C rootHash
      let t ← Prog.read
      match t.node n with
      | .branch slots =>
          match route with
          | [] => do
              let childHash ← delete fuel (slots 16) []
              deleteBranch C rootHash n 16 childHash
          | i :: rest => do
              let childHash ← delete fuel (slots i.castSucc) rest
              deleteBranch C rootHash n i.castSucc childHash
      | .ext path next =>
          if Radix.commonLen path route ≠ path.length then Prog.fail .notFound
          else do
            let childHash ← delete fuel next (route.drop path.length)
            deleteExt C rootHash n childHash
      | .val _ => do
          deprecateNode rootHash
          pure []

/-- `Trie.Delete`. -/
def deleteKey (key : Bytes) : TrieM Unit := do
  let t ← Prog.read
  let route := keyToRoute key
  let hash ← delete C (route.length + 2) t.rootHash route
  Prog.update fun t => { t with rootHash := hash }

/-! ## Flush and Reset -/

/-- One turn of the loop of `Trie.Flush`: write the object of an entry under the hash the
object carries. -/
def flushNode (t : Trie) (temp : TempNode) : Trie :=
  if temp.saved || temp.refCount < 1 then t
  else
    { t with
      storage := Function.update t.storage (t.heap temp.node).hash
        (some (C.marshal (t.node temp.node))) }

/-- `Trie.Flush`; `order` is the order in which Go's `range` visits the cached hashes. -/
def flush (order : List Hash) : TrieM Unit := do
  let t ← Prog.read
  if t.prepared then
    Prog.update fun t =>
      { (order.filterMap t.tempNodes).foldl (flushNode C) t with
        tempNodes := fun _ => none, prepared := false }
  else Prog.fail .notPrepared

/-- `Trie.Reset`. -/
def reset : TrieM Unit := do
  let t ← Prog.read
  if t.prepared then
    Prog.update fun t => { t with tempNodes := fun _ => none, prepared := false }
  else Prog.fail .notPrepared

end Trie

end GoMedibloc
