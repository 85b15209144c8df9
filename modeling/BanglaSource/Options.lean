-- SUMMARY: The options of one pipeline call.

/-!
# Options
-/
namespace BanglaSource

/-- The options of one call. -/
structure Options where
  /-- Leave Bangla words that are no keywords as they are written. -/
  keepNames : Bool := false
  /-- Consult and fill the cache. -/
  useCache : Bool := true
deriving DecidableEq, Repr

end BanglaSource
