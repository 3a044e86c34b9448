/-
# StyleCascade.Warning — what the author of a sheet is told

Registering a sheet always succeeds, but some sheets are likely not what their author meant. A warning
names such a case.
-/

namespace StyleCascade

/-- Something to tell the author of a sheet. -/
inductive Warning where
  /-- A root key refers to an enclosing key, and there is none. -/
  | unenclosedReference (key : String)
  /-- A local scope is registered again. -/
  | repeatedScope (name : String)
deriving DecidableEq

/-- The wording of a warning. -/
def Warning.message : Warning → String
  | unenclosedReference key =>
    "`&` in selector `" ++ key ++ "` has no enclosing selector; left unexpanded"
  | repeatedScope name =>
    "local scope `" ++ name ++ "` is already registered; merging new rules into it"

end StyleCascade
