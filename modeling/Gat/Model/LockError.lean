import Gat.Model.LexicalPath

/-! # Lock format failures

Every structural failure carries what its message names: the one-based line, the offending path, or
both paths of a conflict.
-/

namespace Gat

inductive MalformedRowReason where
  | invalidSeparator
  | missingLineFeed
  | unorderedPath (path : Str)
deriving DecidableEq, Repr

inductive InvalidOidReason where
  | notHexBlake3
deriving DecidableEq, Repr

inductive LockDomainError where
  | empty
  | unsupportedVersion (expected got : Str)
  | malformedRow (line : ℕ) (reason : MalformedRowReason)
  | invalidRowPath (line : ℕ) (path : Str) (source : LexicalPathError)
  | nonCanonicalPath (line : ℕ) (path : Str)
  | invalidOid (line : ℕ) (path : Str) (reason : InvalidOidReason)
  | duplicatePath (path : Str) (line : Option ℕ)
  | pathInMultipleShards (path : Str)
  | directoryPrefixConflict (ancestor descendant : Str)
  | misplacedShardRow (path actual expected : Str)
deriving DecidableEq, Repr

end Gat
