import Camlispp.Library.Bytes

/-!
# Requests and replies

The data the connection, the parser and the request handler exchange. A header is a name and a
value; a request looks a header up by its exact name, the request handler by its name up to case.

## Two ways to look a header up

The parser puts names in lower case as it collects them, and asks for `content-length` by exactly
that name (`Request.getHeader`). The handlers ask up to case (`getHeader`). Both take the **first**
header of the name, and make of a missing one what they make of an empty one.

A reply with a content of its own has a length and a type (`Reply.withContent`), the stock pages
among them. The reply to an upload has neither, and is written without any header.
-/

open Bytes

namespace Camlispp.Http

/-- A header line. -/
structure Header where
  name : Bytes
  value : Bytes
deriving DecidableEq

/-- A request as the parser collects it. -/
structure Request where
  method : Bytes
  uri : Bytes
  httpVersionMajor : ℤ
  httpVersionMinor : ℤ
  headers : List Header
  content : Bytes
deriving DecidableEq

/-- `request::get_header`: the exact name, and the empty string if there is none. -/
def Request.getHeader (req : Request) (name : Bytes) : Bytes :=
  ((req.headers.find? fun h ↦ h.name = name).map Header.value).getD []

/-- `request_handler::get_header`: the name up to case. -/
def getHeader (headers : List Header) (name : Bytes) : Bytes :=
  ((headers.find? fun h ↦ lower h.name = lower name).map Header.value).getD []

/-- `reply::status_type`. -/
inductive Status
  | ok | created | accepted | noContent
  | multipleChoices | movedPermanently | movedTemporarily | notModified
  | badRequest | unauthorized | forbidden | notFound
  | internalServerError | notImplemented | badGateway | serviceUnavailable
deriving DecidableEq

/-- A reply. -/
structure Reply where
  status : Status
  headers : List Header
  content : Bytes
deriving DecidableEq

/-- A stock page: its title, and its heading with the status code. -/
def page (title heading : String) : Bytes :=
  lit ("<html><head><title>" ++ title ++ "</title></head><body><h1>" ++ heading ++
    "</h1></body></html>")

/-- `stock_replies::to_string`. -/
def Status.stockPage : Status → Bytes
  | .ok => []
  | .created => page "Created" "201 Created"
  | .accepted => page "Accepted" "202 Accepted"
  | .noContent => page "No Content" "204 Content"
  | .multipleChoices => page "Multiple Choices" "300 Multiple Choices"
  | .movedPermanently => page "Moved Permanently" "301 Moved Permanently"
  | .movedTemporarily => page "Moved Temporarily" "302 Moved Temporarily"
  | .notModified => page "Not Modified" "304 Not Modified"
  | .badRequest => page "Bad Request" "400 Bad Request"
  | .unauthorized => page "Unauthorized" "401 Unauthorized"
  | .forbidden => page "Forbidden" "403 Forbidden"
  | .notFound => page "Not Found" "404 Not Found"
  | .internalServerError => page "Internal Server Error" "500 Internal Server Error"
  | .notImplemented => page "Not Implemented" "501 Not Implemented"
  | .badGateway => page "Bad Gateway" "502 Bad Gateway"
  | .serviceUnavailable => page "Service Unavailable" "503 Service Unavailable"

/-- A reply that carries its content with its length and type. -/
def Reply.withContent (status : Status) (content : Bytes) (type : String) : Reply :=
  { status
    headers := [⟨lit "Content-Length", decimal content.length⟩, ⟨lit "Content-Type", lit type⟩]
    content }

/-- `reply::stock_reply`. -/
def stockReply (status : Status) : Reply := .withContent status status.stockPage "text/html"

@[simp] theorem status_stockReply (status : Status) : (stockReply status).status = status := rfl

@[simp] theorem content_withContent (status : Status) (content : Bytes) (type : String) :
    (Reply.withContent status content type).content = content := rfl

end Camlispp.Http
