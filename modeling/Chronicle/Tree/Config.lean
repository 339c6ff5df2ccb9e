import Chronicle.Fault

/-!
# Layout of a tree

The settings of a history tree, the room they leave in its nodes, and the
condition under which every node has room for an interval and every number
fits its field.
-/

namespace Chronicle.Tree

/-- The settings of a history tree. -/
structure Config where
  /-- The size in bytes of each node in the file. -/
  blockSize : Nat := 65536
  /-- The number of children a node can have. -/
  maxChildren : Nat := 50
  /-- The version of the provider that builds the history. -/
  version : Nat := 0
  /-- The start of the history. -/
  start : Int := 0
  /-- The number of stored nodes that are kept at hand. -/
  cacheSize : Nat := 256
deriving DecidableEq, Repr, Inhabited

/-- The number of bytes in front of a node's children and intervals. -/
def nodeHeaderSize : Nat := 32

/-- The number of bytes in a link to a child. -/
def linkSize : Nat := 12

/-- The number of bytes of a checksum. -/
def checksumSize : Nat := 4

/-- The number of bytes of the smallest interval. -/
def smallestInterval : Nat := 21

namespace Config

/-- The number of bytes for intervals in a leaf. -/
def leafCapacity (config : Config) : Nat :=
  config.blockSize - (nodeHeaderSize + checksumSize)

/-- The number of bytes for intervals in a node with children. -/
def coreCapacity (config : Config) : Nat :=
  config.leafCapacity - config.maxChildren * linkSize

/-- What is wrong with the settings, if anything. -/
def problem? (config : Config) : Option Fault.BadArgument :=
  if config.maxChildren < 2 then
    some (.fewChildren config.maxChildren)
  else if 65536 ≤ config.maxChildren then
    some (.manyChildren config.maxChildren)
  else if 4294967296 ≤ config.blockSize then
    some (.largeBlock config.blockSize)
  else if config.coreCapacity < smallestInterval then
    some (.smallBlock config.blockSize config.maxChildren)
  else
    none

/-- Refuses settings under which a tree cannot work. -/
def validate (config : Config) : Except Fault Unit :=
  match config.problem? with
  | some cause => .error (.badArgument cause)
  | none => .ok ()

/-- Settings under which a tree works. -/
structure Valid (config : Config) : Prop where
  twoChildren : 2 ≤ config.maxChildren
  childrenFit : config.maxChildren < 65536
  blockFits : config.blockSize < 4294967296
  roomForInterval : smallestInterval ≤ config.coreCapacity

/-- Exactly the settings under which a tree works are let through. -/
theorem validate_eq_ok_iff
    (config : Config) :
    config.validate = .ok () ↔ config.Valid := by
  constructor
  · intro accepted
    simp only [validate, problem?] at accepted
    constructor <;> grind
  · rintro ⟨twoChildren, childrenFit, blockFits, roomForInterval⟩
    simp only [validate, problem?]
    rw [if_neg (by omega), if_neg (by omega), if_neg (by omega), if_neg (by omega)]

end Config

end Chronicle.Tree
