/-! # The support code of the generated codecs

    Generated codecs call a routine for each primitive. These are the texts
    that define those routines, one for each way of reading: they are put
    in front of the generated code. What the Rust routines do is said once
    more, as functions, in `TaggedWire.Starship.Routines`.
-/

namespace TaggedWire.Starship

/-- Rust routines that read from an asynchronous stream. -/
def streamSupport : String := "// Primitive routines for the async stream flavor.
//
// Strings longer than 255 bytes are sent as the empty string.

use futures_util::stream::\x7bStream, StreamExt\x7d;

fn type_string_serialize(out: &mut Vec<u8>, string: &str) \x7b
    match u8::try_from(string.len()) \x7b
        Ok(len) => \x7b
            out.push(len);
            out.extend_from_slice(string.as_bytes());
        \x7d
        Err(_) => out.push(0),
    \x7d
\x7d

async fn type_string_deserialize<S: Stream<Item = u8> + Unpin>(buf: &mut S) -> Result<String, ()> \x7b
    let size = buf.next().await.ok_or(())?;
    let mut bytes = Vec::with_capacity(size as usize);
    for _ in 0..size \x7b
        bytes.push(buf.next().await.ok_or(())?);
    \x7d
    String::from_utf8(bytes).or(Err(()))
\x7d

async fn read_array<S: Stream<Item = u8> + Unpin, const N: usize>(buf: &mut S) -> Result<[u8; N], ()> \x7b
    let mut bytes = [0u8; N];
    for byte in bytes.iter_mut() \x7b
        *byte = buf.next().await.ok_or(())?;
    \x7d
    Ok(bytes)
\x7d

fn type_float_serialize(out: &mut Vec<u8>, float: &f32) \x7b
    out.extend_from_slice(&float.to_be_bytes());
\x7d

async fn type_float_deserialize<S: Stream<Item = u8> + Unpin>(buf: &mut S) -> Result<f32, ()> \x7b
    Ok(f32::from_be_bytes(read_array(buf).await?))
\x7d

fn type_u8_serialize(out: &mut Vec<u8>, ubyte: &u8) \x7b
    out.push(*ubyte);
\x7d

async fn type_u8_deserialize<S: Stream<Item = u8> + Unpin>(buf: &mut S) -> Result<u8, ()> \x7b
    buf.next().await.ok_or(())
\x7d

fn type_u16_serialize(out: &mut Vec<u8>, ushort: &u16) \x7b
    out.extend_from_slice(&ushort.to_be_bytes());
\x7d

async fn type_u16_deserialize<S: Stream<Item = u8> + Unpin>(buf: &mut S) -> Result<u16, ()> \x7b
    Ok(u16::from_be_bytes(read_array(buf).await?))
\x7d

fn type_u32_serialize(out: &mut Vec<u8>, uint: &u32) \x7b
    out.extend_from_slice(&uint.to_be_bytes());
\x7d

async fn type_u32_deserialize<S: Stream<Item = u8> + Unpin>(buf: &mut S) -> Result<u32, ()> \x7b
    Ok(u32::from_be_bytes(read_array(buf).await?))
\x7d

fn type_bool_serialize(out: &mut Vec<u8>, boolean: &bool) \x7b
    out.push(u8::from(*boolean));
\x7d

async fn type_bool_deserialize<S: Stream<Item = u8> + Unpin>(buf: &mut S) -> Result<bool, ()> \x7b
    Ok(buf.next().await.ok_or(())? > 0)
\x7d

fn type_float_pair_serialize(out: &mut Vec<u8>, pair: &(f32, f32)) \x7b
    type_float_serialize(out, &pair.0);
    type_float_serialize(out, &pair.1);
\x7d

async fn type_float_pair_deserialize<S: Stream<Item = u8> + Unpin>(buf: &mut S) -> Result<(f32, f32), ()> \x7b
    Ok((type_float_deserialize(buf).await?, type_float_deserialize(buf).await?))
\x7d
"

/-- Rust routines that read from a buffer at a cursor. -/
def cursorSupport : String := "// Primitive routines for the cursor flavor.
//
// Every read is bounds checked against `buf`. Strings longer than 255
// bytes are sent as the empty string.

fn take<'a>(buf: &'a [u8], index: &mut usize, size: usize) -> Result<&'a [u8], ()> \x7b
    let end = index.checked_add(size).ok_or(())?;
    let bytes = buf.get(*index..end).ok_or(())?;
    *index = end;
    Ok(bytes)
\x7d

fn read_array<const N: usize>(buf: &[u8], index: &mut usize) -> Result<[u8; N], ()> \x7b
    let mut bytes = [0u8; N];
    bytes.copy_from_slice(take(buf, index, N)?);
    Ok(bytes)
\x7d

fn type_string_serialize(out: &mut Vec<u8>, string: &str) \x7b
    match u8::try_from(string.len()) \x7b
        Ok(len) => \x7b
            out.push(len);
            out.extend_from_slice(string.as_bytes());
        \x7d
        Err(_) => out.push(0),
    \x7d
\x7d

fn type_string_deserialize(buf: &[u8], index: &mut usize) -> Result<String, ()> \x7b
    let size = take(buf, index, 1)?[0] as usize;
    let bytes = take(buf, index, size)?;
    String::from_utf8(bytes.to_vec()).or(Err(()))
\x7d

fn type_float_serialize(out: &mut Vec<u8>, float: &f32) \x7b
    out.extend_from_slice(&float.to_be_bytes());
\x7d

fn type_float_deserialize(buf: &[u8], index: &mut usize) -> Result<f32, ()> \x7b
    Ok(f32::from_be_bytes(read_array(buf, index)?))
\x7d

fn type_u8_serialize(out: &mut Vec<u8>, ubyte: &u8) \x7b
    out.push(*ubyte);
\x7d

fn type_u8_deserialize(buf: &[u8], index: &mut usize) -> Result<u8, ()> \x7b
    Ok(take(buf, index, 1)?[0])
\x7d

fn type_u16_serialize(out: &mut Vec<u8>, ushort: &u16) \x7b
    out.extend_from_slice(&ushort.to_be_bytes());
\x7d

fn type_u16_deserialize(buf: &[u8], index: &mut usize) -> Result<u16, ()> \x7b
    Ok(u16::from_be_bytes(read_array(buf, index)?))
\x7d

fn type_u32_serialize(out: &mut Vec<u8>, uint: &u32) \x7b
    out.extend_from_slice(&uint.to_be_bytes());
\x7d

fn type_u32_deserialize(buf: &[u8], index: &mut usize) -> Result<u32, ()> \x7b
    Ok(u32::from_be_bytes(read_array(buf, index)?))
\x7d

fn type_bool_serialize(out: &mut Vec<u8>, boolean: &bool) \x7b
    out.push(u8::from(*boolean));
\x7d

fn type_bool_deserialize(buf: &[u8], index: &mut usize) -> Result<bool, ()> \x7b
    Ok(take(buf, index, 1)?[0] > 0)
\x7d

fn type_float_pair_serialize(out: &mut Vec<u8>, pair: &(f32, f32)) \x7b
    type_float_serialize(out, &pair.0);
    type_float_serialize(out, &pair.1);
\x7d

fn type_float_pair_deserialize(buf: &[u8], index: &mut usize) -> Result<(f32, f32), ()> \x7b
    let bytes: [u8; 8] = read_array(buf, index)?;
    let (a, b) = bytes.split_at(4);
    let mut first = [0u8; 4];
    let mut second = [0u8; 4];
    first.copy_from_slice(a);
    second.copy_from_slice(b);
    Ok((f32::from_be_bytes(first), f32::from_be_bytes(second)))
\x7d
"

/-- TypeScript routines. -/
def browserSupport : String := "// Primitive routines for the browser client.
//
// Strings longer than 255 bytes are sent as the empty string.

export class Box<T> \x7b
    v: T;
    constructor(v: T) \x7b this.v = v; \x7d
\x7d

const encoder = new TextEncoder();
const decoder = new TextDecoder();

function take(buf: Uint8Array, index: Box<number>, size: number): Uint8Array \x7b
    if (index.v + size > buf.length) throw new Error(\"Unexpected end of buffer\");
    const bytes = buf.subarray(index.v, index.v + size);
    index.v += size;
    return bytes;
\x7d

function type_string_serialize(out: number[], string: string) \x7b
    const bytes = encoder.encode(string);
    if (bytes.length > 255) \x7b out.push(0); return; \x7d
    out.push(bytes.length);
    for (const byte of bytes) out.push(byte);
\x7d
function type_string_deserialize(buf: Uint8Array, index: Box<number>): string \x7b
    const size = take(buf, index, 1)[0];
    return decoder.decode(take(buf, index, size));
\x7d

function type_float_serialize(out: number[], float: number) \x7b
    const view = new DataView(new ArrayBuffer(4));
    view.setFloat32(0, float);
    for (let i = 0; i < 4; i++) out.push(view.getUint8(i));
\x7d
function type_float_deserialize(buf: Uint8Array, index: Box<number>): number \x7b
    const bytes = take(buf, index, 4);
    return new DataView(bytes.buffer, bytes.byteOffset, 4).getFloat32(0);
\x7d

function type_ubyte_serialize(out: number[], ubyte: number) \x7b out.push(ubyte & 0xff); \x7d
function type_ubyte_deserialize(buf: Uint8Array, index: Box<number>): number \x7b return take(buf, index, 1)[0]; \x7d

function type_ushort_serialize(out: number[], ushort: number) \x7b out.push((ushort >> 8) & 0xff, ushort & 0xff); \x7d
function type_ushort_deserialize(buf: Uint8Array, index: Box<number>): number \x7b
    const bytes = take(buf, index, 2);
    return (bytes[0] << 8) | bytes[1];
\x7d

function type_uint_serialize(out: number[], uint: number) \x7b
    out.push((uint >>> 24) & 0xff, (uint >>> 16) & 0xff, (uint >>> 8) & 0xff, uint & 0xff);
\x7d
function type_uint_deserialize(buf: Uint8Array, index: Box<number>): number \x7b
    const bytes = take(buf, index, 4);
    return ((bytes[0] << 24) | (bytes[1] << 16) | (bytes[2] << 8) | bytes[3]) >>> 0;
\x7d

function type_boolean_serialize(out: number[], bool: boolean) \x7b out.push(bool ? 1 : 0); \x7d
function type_boolean_deserialize(buf: Uint8Array, index: Box<number>): boolean \x7b return take(buf, index, 1)[0] > 0; \x7d

function type_float_pair_serialize(out: number[], pair: [number, number]) \x7b
    type_float_serialize(out, pair[0]);
    type_float_serialize(out, pair[1]);
\x7d
function type_float_pair_deserialize(buf: Uint8Array, index: Box<number>): [number, number] \x7b
    return [type_float_deserialize(buf, index), type_float_deserialize(buf, index)];
\x7d
"

end TaggedWire.Starship
