import Mathlib.Data.List.Basic

/-!
# Principals of `api/auth.py`
-/

namespace CodexMemory

/-- `Principal`, the fields that are read here. -/
structure Principal where
  projectKey : String
  permissions : List String

/-- `PermissionDenied` and `ProjectAccessDenied` with their messages. -/
inductive AccessError
  | permissionDenied (message : String)
  | projectAccessDenied (message : String)
  deriving DecidableEq

/-- `require_permission` -/
def requirePermission (principal : Principal) (permission : String) : Except AccessError Unit :=
  if permission ∉ principal.permissions ∧ "admin" ∉ principal.permissions then
    .error (.permissionDenied ("缺少权限：" ++ permission))
  else .ok ()

/-- `require_project_access` -/
def requireProjectAccess (principal : Principal) (projectKey : String) : Except AccessError Unit :=
  if "admin" ∉ principal.permissions ∧ principal.projectKey ≠ projectKey then
    .error (.projectAccessDenied ("令牌无权访问项目：" ++ projectKey))
  else .ok ()

end CodexMemory
