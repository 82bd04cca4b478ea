import CaeloCms.Redirect.Target

/-!
# The redirect URIs of MCP clients

The allowlist every redirect URI of the broker passes, and when a requested URI matches one a client registered.
-/

namespace CaeloCms.Mcp

open CaeloCms.Redirect (utf16Length isDigit)

/-- `[A-Za-z0-9_-]` -/
def isBase64Url (c : Char) : Bool := c.isAlphanum || c == '_' || c == '-'

def redirectUriAllowlist : List String :=
  ["https://claude.ai/api/mcp/auth_callback",
   "https://claude.com/api/mcp/auth_callback",
   "https://chatgpt.com/connector_platform_oauth_redirect",
   "https://vscode.dev/redirect",
   "https://insiders.vscode.dev/redirect",
   "cursor://anysphere.cursor-mcp/oauth/callback",
   "https://www.cursor.com/agents/mcp/oauth/callback"]

def isChatgptCallbackId (uri : String) : Bool :=
  match "https://chatgpt.com/connector/oauth/".toList.isPrefixOf? uri.toList with
  | none => false
  | some id => 1 ≤ id.length && id.length ≤ 128 && id.all isBase64Url

structure Loopback where
  host : String
  port : Option Nat
  path : List Char
deriving DecidableEq

/-- A character the path of `LOOPBACK` may hold. -/
def isLoopbackPathChar (c : Char) : Bool := c.isAlphanum || "-._~!$&'()*+,;=:%/".toList.contains c

def isHexDigit (c : Char) : Bool := isDigit c || ('a' ≤ c && c ≤ 'f') || ('A' ≤ c && c ≤ 'F')

/-- `%` stands only in a complete escape, and never in one of a slash, a dot or a backslash. -/
def escapesPlain : List Char → Bool
  | [] => true
  | '%' :: a :: b :: rest =>
    isHexDigit a && isHexDigit b &&
      !((a == '2' && (b.toLower == 'f' || b.toLower == 'e')) || (a == '5' && b.toLower == 'c')) &&
      escapesPlain (a :: b :: rest)
  | c :: rest => c != '%' && escapesPlain rest

def decimal (digits : List Char) : Nat := digits.foldl (fun n c => 10 * n + (c.toNat - '0'.toNat)) 0

/-- The port and the path, from what follows the host. -/
def loopbackRest (rest : List Char) : Option (Option Nat × List Char) := do
  let (port, rest) ← match rest with
    | ':' :: rest =>
      let digits := rest.takeWhile isDigit
      if 1 ≤ digits.length ∧ digits.length ≤ 5 ∧ digits.head? ≠ some '0' then
        some (some (decimal digits), rest.drop digits.length)
      else none
    | rest => some (none, rest)
  match rest with
  | [] => some (port, ['/'])
  | '/' :: _ => if rest.all isLoopbackPathChar then some (port, rest) else none
  | _ => none

def parseLoopback (uri : String) : Option Loopback := do
  let rest ← "http://".toList.isPrefixOf? uri.toList
  let (host, rest) ← ["127.0.0.1", "localhost", "[::1]"].findSome? fun host =>
    (host.toList.isPrefixOf? rest).map fun rest => (host, rest)
  let (port, path) ← loopbackRest rest
  if port.any (65535 < ·) then none
  else if !escapesPlain path then none
  else some { host, port, path }

def isAllowedRedirectUri (uri : String) : Bool :=
  if 2048 < utf16Length uri.toList then false
  else redirectUriAllowlist.contains uri || isChatgptCallbackId uri || (parseLoopback uri).isSome

def redirectUriMatches (requested : String) (registered : List String) : Bool :=
  isAllowedRedirectUri requested && registered.any fun r =>
    r == requested ||
      match parseLoopback requested, parseLoopback r with
      | some req, some reg => reg.host == req.host && reg.path == req.path
      | _, _ => false

/-- The port of a loopback URI is the app's to choose at each sign-in, its path is not. -/
example : redirectUriMatches "http://localhost:53682/callback" ["http://localhost/callback"] = true ∧
    redirectUriMatches "http://localhost:53682/other" ["http://localhost/callback"] = false := by
  decide

end CaeloCms.Mcp
