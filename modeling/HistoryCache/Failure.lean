import HistoryCache.Value

/-!
# Failures

What can go wrong, by cause, and the words for it (`message`).  A failure inside the cache reaches a
caller only when the caller's handle is off (`CacheFailure.disabled`); any other costs the item its
place in the cache and the request is answered from the store.
-/

namespace HistoryCache

/-- Failures of the history store. -/
inductive StoreFailure where
  | readFailed (reason : String)
  | writeFailed (reason : String)
  | unavailable (reason : String)
  deriving DecidableEq, Inhabited

def StoreFailure.message : StoreFailure → String
  | readFailed reason => "Read failed: " ++ reason
  | writeFailed reason => "Write failed: " ++ reason
  | unavailable reason => "Backend unavailable: " ++ reason

/-- Failures inside the cache. -/
inductive CacheFailure where
  /-- The budget has no room for an allocation, whatever was evicted. -/
  | outOfMemory (requested : Nat)
  /-- A history is not in the order it should be in. -/
  | outOfOrder (item : ItemId) (reason : String)
  /-- An item is cached as one kind and asked for as another. -/
  | kindMismatch (item : ItemId) (cached requested : Kind)
  /-- Nobody has asked for an item for longer than the expire period. -/
  | expired (item : ItemId) (lastAccessed : Int)
  /-- A value was written below the cached history while the store was read. -/
  | tailChanged (item : ItemId)
  /-- An item is to be dropped when the last of its readers leaves. -/
  | removePending (item : ItemId)
  | itemMissing (item : ItemId)
  /-- The handle is off. -/
  | disabled
  deriving DecidableEq, Inhabited

def CacheFailure.message : CacheFailure → String
  | outOfMemory requested =>
    "Out of value cache memory: requested " ++ toString requested ++ " bytes"
  | outOfOrder item reason =>
    "Chunk invariant violated for item " ++ toString item ++ ": " ++ reason
  | kindMismatch item cached requested =>
    "Item " ++ toString item ++ " is cached as " ++ cached.name ++ ", requested as " ++
      requested.name
  | expired item lastAccessed =>
    "Item " ++ toString item ++ " idle since " ++ toString lastAccessed
  | tailChanged item =>
    "Item " ++ toString item ++ " changed below its cached tail during a store read"
  | removePending item => "Item " ++ toString item ++ " is pending removal"
  | itemMissing item => "Item " ++ toString item ++ " is not cached"
  | disabled => "Value cache is disabled"

/-- Failures of a configuration. -/
inductive ConfigFailure where
  /-- A value lies outside the bounds of its field. -/
  | outOfRange (field value low high : String)
  /-- A value cannot be read. -/
  | invalidFormat (field reason : String)
  /-- Any other cause, in its own words. -/
  | other (reason : String)
  deriving DecidableEq, Inhabited

def ConfigFailure.message : ConfigFailure → String
  | outOfRange field value low high =>
    field ++ " value " ++ value ++ " is out of range [" ++ low ++ ", " ++ high ++ "]"
  | invalidFormat field reason => "Invalid format for " ++ field ++ ": " ++ reason
  | other reason => reason

/-- A failure of any part. -/
inductive Failure where
  | cache (cause : CacheFailure)
  | store (cause : StoreFailure)
  | configuration (cause : ConfigFailure)
  /-- A file cannot be read or written. -/
  | io (reason : String)
  deriving DecidableEq, Inhabited

def Failure.message : Failure → String
  | cache cause => "Value cache error: " ++ cause.message
  | store cause => "History store error: " ++ cause.message
  | configuration cause => "Configuration error: " ++ cause.message
  | io reason => "IO error: " ++ reason

end HistoryCache
