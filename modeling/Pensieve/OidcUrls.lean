/-
**Which URLs the OIDC backend fetches keys from.**

An issuer must be reached over TLS unless its host is the machine itself.  The guard cuts the host out of the URL at the
first slash and colon; the HTTP client reads the URL by its grammar.
-/

import Pensieve.ManagedRegion
import Pensieve.Rows

namespace Oidc

open List
open Discover (Text)
open Ccmem (stripPrefix stripPrefix_eq_some)

/-! ### The guard -/

def http : Text := "http://".toList

def loopbackHosts : List Text := ["localhost".toList, "127.0.0.1".toList, "::1".toList]

/-- `require_https_for_non_loopback`, which is `Ok` for `true`. -/
def requireHttpsForNonLoopback (url : Text) : Bool :=
  match stripPrefix http url with
  | none => true
  | some rest => (rest.takeWhile (· ≠ '/')).takeWhile (· ≠ ':') ∈ loopbackHosts

def discoveryUrl (issuer : Text) : Text := issuer ++ "/.well-known/openid-configuration".toList

/-- The URLs that `jwks_for` passes to the HTTP client if its cache has no answer; `discover` is the `jwks_uri` of the
document that is found at a URL. -/
def jwksFor (discover : Text → Option Text) (issuer : Text) : List Text :=
  if requireHttpsForNonLoopback issuer then
    discoveryUrl issuer :: (discover (discoveryUrl issuer)).toList.filter requireHttpsForNonLoopback
  else []

/-! ### The grammar of URLs -/

def scheme (url : Text) : Text := (url.takeWhile (· ≠ ':')).map Char.toLower

/-- What comes after `//`, up to the path, the query or the fragment. -/
def authority (rest : Text) : Text := rest.takeWhile (· ∉ ['/', '?', '#'])

def afterAuthority (rest : Text) : Text := rest.dropWhile (· ∉ ['/', '?', '#'])

/-- The host of an authority: without the user information before the last `@`, and without the port. -/
def host (authority : Text) : Text :=
  match authority.rtakeWhile (· ≠ '@') with
  | '[' :: address => '[' :: address.takeWhile (· ≠ ']') ++ (address.dropWhile (· ≠ ']')).take 1
  | hostPort => hostPort.takeWhile (· ≠ ':')

def loopbackNames : List Text := ["localhost".toList, "127.0.0.1".toList, "[::1]".toList]

def IsLoopback (host : Text) : Prop := host.map Char.toLower ∈ loopbackNames

instance (host : Text) : Decidable (IsLoopback host) := inferInstanceAs (Decidable (_ ∈ _))

def Loopback (url : Text) : Prop :=
  ∃ rest ∈ stripPrefix "://".toList (url.dropWhile (· ≠ ':')), IsLoopback (host (authority rest))

def Secure (url : Text) : Prop := scheme url = "https".toList ∨ Loopback url

def Guarded (discover : Text → Option Text) (issuer : Text) : Prop :=
  (∀ url ∈ jwksFor discover issuer, Secure url) ∧
    (scheme (discoveryUrl issuer) = "http".toList → Loopback (discoveryUrl issuer) →
      discoveryUrl issuer ∈ jwksFor discover issuer) ∧
    ∀ url ∈ discover (discoveryUrl issuer), discoveryUrl issuer ∈ jwksFor discover issuer →
      scheme url = "http".toList → Loopback url → url ∈ jwksFor discover issuer

def Plain (url : Text) : Prop :=
  match stripPrefix http url with
  | none => Secure url
  | some rest =>
    let a := authority rest
    if '@' ∈ a then a.takeWhile (· ≠ ':') ∈ loopbackHosts ↔ IsLoopback (host a)
    else IsLoopback (host a) → host a ∈ loopbackHosts ∧ (':' ∈ a ∨ ∀ c ∈ (afterAuthority rest).head?, c ≠ '?' ∧ c ≠ '#')

/-! ### How the guard reads a URL -/

variable {rest url issuer : Text} {discover : Text → Option Text}

theorem loopbackHosts_plain : ∀ h ∈ loopbackHosts, '?' ∉ h ∧ '#' ∉ h ∧ '@' ∉ h ∧ '[' ∉ h := by decide

theorem isLoopback_of_mem {n : Text} (h : n ∈ loopbackHosts) (hcolon : ':' ∉ n) : IsLoopback n := by
  simp only [loopbackHosts, mem_cons, not_mem_nil, or_false] at h
  rcases h with rfl | rfl | rfl
  · decide
  · decide
  · exact absurd (by decide) hcolon

theorem colon_notMem (l : Text) : ':' ∉ l.takeWhile (· ≠ ':') := fun h => by simpa using mem_takeWhile_imp h

/-- **What the guard accepts**, of the URLs that begin with `http://`. -/
theorem guard_http : requireHttpsForNonLoopback (http ++ rest) = true ↔
    (authority rest).takeWhile (· ≠ ':') ∈ loopbackHosts ∧
      (':' ∈ authority rest ∨ ∀ c ∈ (afterAuthority rest).head?, c ≠ '?' ∧ c ≠ '#') := by
  have hstrip : stripPrefix http (http ++ rest) = some rest := stripPrefix_eq_some.2 rfl
  have hslash : ∀ c ∈ authority rest, decide (c ≠ '/') = true := by
    intro c hc
    have hc := mem_takeWhile_imp hc
    simp only [mem_cons, not_or, decide_eq_true_eq] at hc ⊢
    exact hc.1
  simp only [requireHttpsForNonLoopback, hstrip, decide_eq_true_eq]
  conv_lhs => rw [← takeWhile_append_dropWhile (p := (· ∉ ['/', '?', '#'])) (l := rest)]
  rw [← authority, ← afterAuthority, takeWhile_append_of_pos hslash]
  by_cases hcolon : ':' ∈ authority rest
  · -- a port or a password: the guard stops at the colon
    have hlt : ((authority rest).takeWhile (· ≠ ':')).length ≠ (authority rest).length := by
      intro heq
      have hall := ( takeWhile_prefix (· ≠ ':')).eq_of_length heq
      exact colon_notMem _ (hall ▸ hcolon)
    rw [takeWhile_append, if_neg hlt]
    simp [hcolon]
  · have hall : (authority rest).takeWhile (· ≠ ':') = authority rest :=
      takeWhile_eq_self_iff.2 fun c hc => decide_eq_true fun heq => hcolon (heq ▸ hc)
    rw [takeWhile_append, if_pos (by rw [hall]), hall]
    cases hafter : afterAuthority rest with
    | nil => simp
    | cons c t =>
      have hc : c ∈ ['/', '?', '#'] := by
        have hstop := head?_dropWhile_not (fun c => decide (c ∉ ['/', '?', '#'])) rest
        rw [← afterAuthority, hafter] at hstop
        simpa only [head?_cons, decide_not, Bool.not_eq_false', decide_eq_true_eq] using hstop
      simp only [mem_cons, not_mem_nil, or_false] at hc
      rcases hc with rfl | rfl | rfl
      · simp
      · have hnot : ∀ t, authority rest ++ '?' :: t ∉ loopbackHosts := fun t h => (loopbackHosts_plain _ h).1 (by simp)
        simp [hcolon, hnot]
      · have hnot : ∀ t, authority rest ++ '#' :: t ∉ loopbackHosts := fun t h => (loopbackHosts_plain _ h).2.1 (by simp)
        simp [hcolon, hnot]

theorem loopback_http : Loopback (http ++ rest) ↔ IsLoopback (host (authority rest)) := by
  have hdrop : (http ++ rest).dropWhile (· ≠ ':') = "://".toList ++ rest := rfl
  have hstrip : stripPrefix "://".toList ("://".toList ++ rest) = some rest := stripPrefix_eq_some.2 rfl
  rw [Loopback, hdrop, hstrip]
  simp

theorem secure_http : Secure (http ++ rest) ↔ IsLoopback (host (authority rest)) := by
  have hscheme : scheme (http ++ rest) = "http".toList := rfl
  rw [Secure, hscheme, loopback_http]
  simp

theorem host_cases (hat : '@' ∉ authority rest) : host (authority rest) = (authority rest).takeWhile (· ≠ ':') ∨
    '[' ∈ host (authority rest) ∧ '[' ∈ (authority rest).takeWhile (· ≠ ':') := by
  have hall : (authority rest).rtakeWhile (· ≠ '@') = authority rest :=
    rtakeWhile_eq_self_iff.2 fun c hc => decide_eq_true fun heq => hat (heq ▸ hc)
  rw [host, hall]
  split
  next address heq => exact .inr ⟨by simp, by rw [heq]; simp⟩
  next => exact .inl rfl

theorem plain_iff : Plain url ↔ (requireHttpsForNonLoopback url = true → Secure url) ∧
    (scheme url = "http".toList → Loopback url → requireHttpsForNonLoopback url = true) := by
  cases hstrip : stripPrefix http url with
  | none =>
    have haccept : requireHttpsForNonLoopback url = true := by rw [requireHttpsForNonLoopback, hstrip]
    simp [Plain, hstrip, haccept]
  | some rest =>
    obtain rfl := stripPrefix_eq_some.1 hstrip
    have hscheme : scheme (http ++ rest) = "http".toList := rfl
    simp only [Plain, hstrip, hscheme, secure_http, loopback_http, guard_http, true_imp_iff]
    split
    next hat =>
      have hcolon : (authority rest).takeWhile (· ≠ ':') ∈ loopbackHosts → ':' ∈ authority rest := by
        intro hmem
        by_contra hnone
        have hall : (authority rest).takeWhile (· ≠ ':') = authority rest :=
          takeWhile_eq_self_iff.2 fun c hc => decide_eq_true fun heq => hnone (heq ▸ hc)
        rw [hall] at hmem
        exact (loopbackHosts_plain _ hmem).2.2.1 hat
      tauto
    next hat =>
      rcases host_cases hat with heq | ⟨hhost, hname⟩
      · have hloop := fun hmem => isLoopback_of_mem (n := (authority rest).takeWhile (· ≠ ':')) hmem (colon_notMem _)
        rw [heq]
        tauto
      · -- an address in brackets, which the guard never takes
        have hno := fun hmem => (loopbackHosts_plain _ hmem).2.2.2 hhost
        have hno' := fun hmem => (loopbackHosts_plain _ hmem).2.2.2 hname
        tauto

/-! ### The issuer -/

theorem stripPrefix_discoveryUrl (h : issuer ≠ "http:/".toList) (hnone : stripPrefix http issuer = none) :
    stripPrefix http (discoveryUrl issuer) = none := by
  by_contra hsome
  obtain ⟨rest, hrest⟩ := Option.ne_none_iff_exists'.1 hsome
  rcases append_eq_append_iff.1 (stripPrefix_eq_some.1 hrest) with ⟨as, hhttp, hpath⟩ | ⟨cs, rfl, -⟩
  · rcases as with - | ⟨c, - | ⟨d, as⟩⟩
    · rw [append_nil] at hhttp
      simp [← hhttp, stripPrefix_eq_some.2 (append_nil http).symm] at hnone
    · -- the slash of the path completes `http:/`
      obtain rfl : '/' = c := (cons.inj hpath).1
      exact h (append_cancel_right (hhttp.symm.trans (by rfl : http = "http:/".toList ++ ['/'])))
    · obtain rfl : '.' = d := (cons.inj (cons.inj hpath).2).1
      have hdot : '.' ∈ http := hhttp ▸ by simp
      exact absurd hdot (by decide)
  · rw [stripPrefix_eq_some.2 rfl] at hnone
    cases hnone

theorem guard_discoveryUrl (h : issuer ≠ "http:/".toList) :
    requireHttpsForNonLoopback (discoveryUrl issuer) = requireHttpsForNonLoopback issuer := by
  cases hstrip : stripPrefix http issuer with
  | none =>
    rw [requireHttpsForNonLoopback, requireHttpsForNonLoopback, hstrip, stripPrefix_discoveryUrl h hstrip]
  | some rest =>
    obtain rfl := stripPrefix_eq_some.1 hstrip
    have hurl : stripPrefix http (discoveryUrl (http ++ rest)) = some (rest ++ "/.well-known/openid-configuration".toList) :=
      stripPrefix_eq_some.2 (append_assoc ..)
    have hcut : (rest ++ "/.well-known/openid-configuration".toList).takeWhile (· ≠ '/') = rest.takeWhile (· ≠ '/') := by
      rw [takeWhile_append]
      split
      next heq =>
        rw [( takeWhile_prefix (· ≠ '/')).eq_of_length heq]
        exact append_nil _
      next => rfl
    rw [requireHttpsForNonLoopback, requireHttpsForNonLoopback, hstrip, hurl]
    simp only [hcut]

theorem mem_jwksFor : url ∈ jwksFor discover issuer ↔ requireHttpsForNonLoopback issuer = true ∧
    (url = discoveryUrl issuer ∨ url ∈ discover (discoveryUrl issuer) ∧ requireHttpsForNonLoopback url = true) := by
  by_cases hok : requireHttpsForNonLoopback issuer = true <;> simp [jwksFor, hok]

/-- **When the backend is safe**: exactly if the issuer is no broken prefix, and the URLs that it asks for are plain. -/
theorem guarded_iff (discover : Text → Option Text) (issuer : Text) : Guarded discover issuer ↔
    issuer ≠ "http:/".toList ∧ Plain (discoveryUrl issuer) ∧
      (requireHttpsForNonLoopback issuer = true → ∀ url ∈ discover (discoveryUrl issuer), Plain url) := by
  by_cases hissuer : issuer = "http:/".toList
  · subst hissuer
    have hurl : discoveryUrl "http:/".toList = http ++ ".well-known/openid-configuration".toList := rfl
    have hsecure : ¬ Secure (discoveryUrl "http:/".toList) := by
      rw [hurl, secure_http]
      decide
    simp only [ne_eq, not_true, false_and, iff_false]
    exact fun h => hsecure (h.1 _ (by simp [jwksFor, requireHttpsForNonLoopback, stripPrefix, http]))
  · have hguard := guard_discoveryUrl hissuer
    simp only [Guarded, mem_jwksFor, plain_iff, hguard]
    constructor
    · rintro ⟨hsecure, hissued, hfound⟩
      refine ⟨hissuer, ⟨fun hok => hsecure _ ⟨hok, .inl rfl⟩, fun hs hl => (hissued hs hl).1⟩, fun hok url hurl => ?_⟩
      refine ⟨fun hg => hsecure url ⟨hok, .inr ⟨hurl, hg⟩⟩, fun hs hl => ?_⟩
      rcases (hfound url hurl ⟨hok, .inl trivial⟩ hs hl).2 with rfl | ⟨-, hg⟩
      · rw [hguard, hok]
      · exact hg
    · rintro ⟨-, hplain, hfound⟩
      refine ⟨?_, fun hs hl => ⟨hplain.2 hs hl, .inl trivial⟩, fun url hurl hok hs hl => ?_⟩
      · rintro url ⟨hok, rfl | ⟨hurl, hg⟩⟩
        · exact hplain.1 hok
        · exact (hfound hok url hurl).1 hg
      · exact ⟨hok.1, .inr ⟨hurl, (hfound hok.1 url hurl).2 hs hl⟩⟩

/-- **A user name that looks like a loopback host** opens the way to any host. -/
theorem user_name_passes : ¬ Guarded (fun _ => none) "http://localhost:80@evil.example".toList := by
  intro h
  have hsecure := h.1 (http ++ "localhost:80@evil.example/.well-known/openid-configuration".toList) (by decide)
  rw [secure_http] at hsecure
  exact absurd hsecure (by decide)

end Oidc
