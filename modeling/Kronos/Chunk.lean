import Kronos.Hex

namespace Kronos.Chunk
open ByteRange Hex

structure Hash where
  bytes : Bytes
  size : bytes.length = 32
  deriving DecidableEq

def Hash.text (hash : Hash) : Bytes := hexText hash.bytes

-- The reference Feed emits for a chunk and Restore reads it by.
structure ChunkRef where
  sequence : Int
  hash : Hash
  key : Bytes
  offset : Int
  size : Int
  storedSize : Int
  etag : Bytes
  compression : Bytes
  encryption : Bytes
  keyID : Bytes
  duplicate : Bool
  deriving DecidableEq

structure Stats where
  chunks : Int
  bytesIn : Int
  uploadedChunks : Int
  dedupedChunks : Int
  bytesUploaded : Int
  deriving DecidableEq

end Kronos.Chunk
